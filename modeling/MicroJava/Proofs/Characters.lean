import MicroJava.Proofs.Accepting
import MicroJava.Proofs.Stored
import MicroJava.Proofs.Suppression

/-!
# The range of characters

A character constant stands for the number of a character (`character_of_terminal`), which may need more
than 16 bits. Where a constant is stored as a character, a number is only accepted if 16 bits can hold
it, but a constant of type `char` is accepted as it is: so in a compilation without diagnostics, every
constant that is stored as a character fits in 16 bits, or is spelled as a character constant
(`compile_stores_characters`), and some do not fit (`compile_stores_wideCharacter`).
-/

namespace MicroJava

namespace Token

namespace Lexeme

theorem value_closeCharacter {c : Char} {more : Nat} {problems : List (Problem × List String)}
    {rest : List Char} {v : Int32} (h : (closeCharacter c more problems rest).value = some v) :
    v = .ofNat c.toNat := by
  unfold closeCharacter at h
  split at h
  · exact (Option.some.inj h).symm
  · contradiction

theorem value_characterConstant {cs : List Char} {v : Int32}
    (h : (characterConstant cs).value = some v) : ∃ c : Char, v = .ofNat c.toNat := by
  unfold characterConstant at h
  split at h
  · contradiction
  · contradiction
  · contradiction
  · contradiction
  · contradiction
  · split at h
    · exact ⟨_, value_closeCharacter h⟩
    · exact ⟨_, value_closeCharacter h⟩
  · exact ⟨_, value_closeCharacter h⟩

theorem value_of_character {c : Char} {cs : List Char} {v : Int32}
    (hk : (read c cs).kind = .character) (h : (read c cs).value = some v) :
    ∃ c : Char, v = .ofNat c.toNat := by
  unfold read at hk h
  split at hk
  · rcases kind_word c cs with hw | hw
    · rw [hw] at hk
      contradiction
    · rw [hk] at hw
      exact absurd hw (by decide)
  · rename_i hc
    rw [if_neg hc] at h
    split at hk
    · rw [kind_integer] at hk
      contradiction
    · rename_i hd
      rw [if_neg hd] at h
      split at hk
      · rename_i hq
        rw [if_pos hq] at h
        exact value_characterConstant h
      · rcases kind_sign c cs with hs | hs
        · rw [hk] at hs
          exact absurd hs (by decide)
        · rw [hs] at hk
          contradiction

end Lexeme

/-- What a character constant of a text stands for is the number of a character. -/
theorem character_of_terminal {source : String} {v : Int32}
    (h : .character v ∈ (scan source).terminals) : ∃ c : Char, v = .ofNat c.toNat := by
  obtain ⟨ts, p, unclosed?, heq, hts⟩ := scan_eq source
  obtain ⟨t, ht, hv⟩ := List.mem_map.1 h
  have hk : t.token.kind = .character := by
    rw [← Token.kind_terminal, hv]
    rfl
  rw [heq] at ht
  rcases List.mem_append.1 ht with ht | ht
  · obtain ⟨q, c, cs, rfl⟩ := hts t ht
    replace hk : (Lexeme.read c cs).kind = .character := hk
    have hliteral : (Lexeme.read c cs).value.getD 0 = v := by
      simpa [Token.terminal, Scanned.ofLexeme, hk, Token.literal] using hv
    rcases hvalue : (Lexeme.read c cs).value with _ | w
    · exact ⟨'\x00', by rw [← hliteral, hvalue]; rfl⟩
    · rw [hvalue] at hliteral
      exact hliteral ▸ Lexeme.value_of_character hk hvalue
  · obtain rfl := List.mem_singleton.1 ht
    contradiction

end Token

/-- The number of a character needs no more than 21 bits. -/
theorem toInt_character (c : Char) :
    0 ≤ (Int32.ofNat c.toNat).toInt ∧ (Int32.ofNat c.toNat).toInt ≤ 0x10FFFF := by
  have h : c.toNat ≤ 0x10FFFF := by
    have hvalid : c.toNat < 0xD800 ∨ 0xDFFF < c.toNat ∧ c.toNat < 0x110000 := c.valid
    omega
  rw [Int32.toInt_ofNat_of_lt (by omega)]
  omega

theorem Session.slips_le (s : Session) : s.slips ≤ s.mistakes := by
  refine List.countP_mono_left fun e _ he => ?_
  cases e with
  | reported d kept => rfl
  | _ => contradiction

open Production Static

variable {source : String} {options : Options}

/-- With too few tokens for the distance between reports to start again from zero, a text that is
compiled without diagnostics has no lexical errors, and is a program that keeps the static rules. -/
theorem correct_of_diagnostics_eq_nil (hfew : options.reportDistance = 0 ∨
      options.reportDistance.toNat + (Token.scan source).ahead.length < 2 ^ 32)
    {r : Compilation} (h : compile source options = .ok r) (hnone : r.diagnostics = []) :
    LexicallyCorrect source ∧ (∃ q : Tree.Program, q.Derives source) ∧
      ∀ q : Tree.Program, q.Derives source → ProgramIsCorrect options q := by
  obtain ⟨hcorrect, hm⟩ := (diagnostics_eq_nil_iff hfew h).1 hnone
  obtain ⟨s, hrun, -, -⟩ := runs_of_compile h
  have hjournal : journal source options = s.journal := congrArg (·.2.journal) hrun
  rw [hjournal] at hm
  exact ⟨hcorrect, derives_of_slips hrun (Nat.le_zero.1 (Nat.le_trans s.slips_le (Nat.le_of_eq hm))),
    fun q hq => (mistakes_of_derives hq hrun).2.1 hm⟩

/-- A text that is compiled without diagnostics is a program in which every constant that is stored as a
character is the number of a character, and fits in 16 bits unless it is spelled as a character
constant. -/
theorem compile_stores_characters (hdistance : options.reportDistance.toNat < 2 ^ 31)
    (htokens : (Token.scan source).ahead.length < 2 ^ 31) {r : Compilation}
    (h : compile source options = .ok r) (hnone : r.diagnostics = []) :
    (∃ q : Tree.Program, q.Derives source) ∧
      ∀ q : Tree.Program, q.Derives source → ∀ κ v, ProgramStores options .char κ v q →
        0 ≤ v.toInt ∧ v.toInt ≤ 0x10FFFF ∧
          (v.toInt ≤ 0xFFFF ∨ κ = .char ∧ .character v ∈ q.yield) := by
  obtain ⟨-, hq, hcorrect⟩ := correct_of_diagnostics_eq_nil (.inr (by omega)) h hnone
  refine ⟨hq, fun q hq κ v hv => ?_⟩
  rcases hv.admissible (hcorrect q hq) with ⟨hlow, hhigh⟩ | ⟨hκ, hmem⟩
  · exact ⟨hlow, by omega, .inl hhigh⟩
  · have hterminal : .character v ∈ (Token.scan source).terminals := by
      rw [hq.2]
      exact List.mem_append_left _ hmem
    obtain ⟨c, rfl⟩ := Token.character_of_terminal hterminal
    exact ⟨(toInt_character c).1, (toInt_character c).2, .inr ⟨hκ, hmem⟩⟩

/-- The program that assigns a character constant to a variable. -/
def Tree.Program.assigning (v : Int32) : Tree.Program :=
  ⟨"P", [.vars ⟨⟨"char", false⟩, .last "c"⟩],
    [⟨none, "main", none, [],
      .cons (.assign (.name "c") .plain (.term (.factor (.character v)))) .nil⟩]⟩

/-- It stores the constant as a character. -/
theorem programStores_assigning (options : Options) (v : Int32) :
    ProgramStores options .char .char v (.assigning v) :=
  @ProgramStores.inMethod _ _ _ _ _ [] _ _ _ _ _ ⟨.void, [], none⟩
    (.cons (.vars (.mk (.plain rfl) (.last rfl))) .nil) rfl .nil ⟨.void, _, .none, .nil⟩
    (.here (.assigned (.name rfl rfl) (.term (.factor (.character v)))))

/-- A letter. -/
theorem compile_stores_characters_letter :
    let source := "program P char c; \x7b void main() \x7b c = 'a'; \x7d \x7d"
    (Tree.Program.assigning 97).Derives source ∧ ProgramStores {} .char .char 97 (.assigning 97) ∧
      0 ≤ (97 : Int32).toInt ∧ (97 : Int32).toInt ≤ 0x10FFFF ∧ ((97 : Int32).toInt ≤ 0xFFFF ∨
        Ty.char = .char ∧ .character 97 ∈ (Tree.Program.assigning 97).yield) := by
  intro source
  have hq : (Tree.Program.assigning 97).Derives source := by
    refine ⟨fun m hm => ?_, by decide +kernel⟩
    obtain rfl := List.mem_singleton.1 hm
    exact ⟨trivial, trivial⟩
  have hstores := programStores_assigning {} 97
  have hnone : (compile source {}).toOption.map (·.diagnostics) = some [] := by decide +kernel
  rcases hr : compile source {} with f | r
  · simp [hr, Except.toOption] at hnone
  · rw [hr] at hnone
    exact ⟨hq, hstores, (compile_stores_characters (by decide) (by decide +kernel) hr
      (Option.some.inj hnone)).2 _ hq .char 97 hstores⟩

/-- A character that needs more than 16 bits is assigned without a diagnostic. -/
theorem compile_stores_wideCharacter :
    let source := "program P char c; \x7b void main() \x7b c = '😀'; \x7d \x7d"
    (compile source {}).toOption.map (·.diagnostics) = some [] ∧
      (Tree.Program.assigning 0x1F600).Derives source ∧
      ProgramStores {} .char .char 0x1F600 (.assigning 0x1F600) ∧ ¬(0x1F600 : Int32).toInt ≤ 0xFFFF := by
  refine ⟨by decide +kernel, ⟨fun m hm => ?_, by decide +kernel⟩, programStores_assigning {} _,
    by decide⟩
  obtain rfl := List.mem_singleton.1 hm
  exact ⟨trivial, trivial⟩

end MicroJava
