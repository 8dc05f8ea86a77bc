import Mathlib.Data.List.TakeWhile
import MicroJava.Proofs.Scanned

/-!
# Lexemes and their classes

A name, a number or a sign is the longest lexeme of its class at its place (`Lexeme.Longest`). What a
token says of the run of characters that it is read from depends on the class of the run (`Spells`), and
every token is read from the run that its lexeme takes from the text (`spells_read`).
-/

namespace MicroJava.Token

namespace Lexeme

/-- A letter, with letters, digits and underscores behind it. -/
def IsName (l : List Char) : Prop := ∃ c cs, l = c :: cs ∧ c.isAlpha ∧ ∀ d ∈ cs, continuesName d

/-- One digit or more. -/
def IsNumeral (l : List Char) : Prop := ∃ c cs, l = c :: cs ∧ c.isDigit ∧ ∀ d ∈ cs, d.isDigit

/-- The spelling of a sign. -/
def IsSign (l : List Char) : Prop := ∃ k ∈ signs, k.label.toList = l

/-- The longest front of a text that belongs to a class. -/
structure Longest (P : List Char → Prop) (l text : List Char) : Prop where
  holds : P l
  front : l <+: text
  length_le : ∀ l', P l' → l' <+: text → l'.length ≤ l.length

/-- A character and the characters behind it that have a property are the longest such front. -/
theorem longest_takeWhile {p q : Char → Bool} {c : Char} (cs : List Char) (hc : q c) :
    Longest (fun l => ∃ c cs, l = c :: cs ∧ q c ∧ ∀ d ∈ cs, p d) (c :: cs.takeWhile p) (c :: cs) where
  holds := ⟨c, _, rfl, hc, fun _ hd => List.mem_takeWhile_imp hd⟩
  front := (List.prefix_cons_inj c).2 ( List.takeWhile_prefix p)
  length_le := by
    rintro l' ⟨c', cs', rfl, -, hcs'⟩ hfront
    obtain ⟨-, ds, rfl⟩ := List.cons_prefix_cons.1 hfront
    rw [List.takeWhile_append_of_pos hcs', List.length_cons, List.length_cons, List.length_append]
    omega

/-! ### Signs -/

/-- A sign that is the front of another stands behind it. -/
theorem signSpellings_ordered :
    signSpellings.Pairwise fun s s' => s.2 <+: s'.2 → s.2 = s'.2 := by
  decide

theorem mem_signSpellings {k : Kind} {l : List Char} :
    (k, l) ∈ signSpellings ↔ k ∈ signs ∧ k.label.toList = l := by
  simp only [signSpellings, List.mem_map, Prod.mk.injEq]
  constructor
  · rintro ⟨k, hk, rfl, rfl⟩
    exact ⟨hk, rfl⟩
  · rintro ⟨hk, rfl⟩
    exact ⟨k, hk, rfl, rfl⟩

/-- The first sign of the list at the front of a text is the longest there. -/
theorem longest_sign {text l : List Char} {k : Kind}
    (h : signSpellings.find? (fun s => s.2.isPrefixOf text) = some (k, l)) :
    k ∈ signs ∧ k.label.toList = l ∧ Longest IsSign l text := by
  obtain ⟨hfront, before, behind, hsplit, hbefore⟩ := List.find?_eq_some_iff_append.1 h
  have hfront : l <+: text := List.isPrefixOf_iff_prefix.1 hfront
  have hmem : (k, l) ∈ signSpellings := by rw [hsplit]; simp
  obtain ⟨hk, hlabel⟩ := mem_signSpellings.1 hmem
  refine ⟨hk, hlabel, ⟨k, hk, hlabel⟩, hfront, ?_⟩
  rintro l' ⟨k', hk', hl'⟩ hfront'
  have hmem' : (k', l') ∈ signSpellings := mem_signSpellings.2 ⟨hk', hl'⟩
  rw [hsplit, List.mem_append, List.mem_cons] at hmem'
  rcases hmem' with hmem' | heq | hmem'
  · have := hbefore _ hmem'
    rw [List.isPrefixOf_iff_prefix.2 hfront'] at this
    contradiction
  · exact Nat.le_of_eq (congrArg List.length (Prod.mk.inj heq).2)
  · -- of two fronts of a text one is the front of the other, so a later sign is no longer
    have hordered := signSpellings_ordered
    rw [hsplit, List.pairwise_append, List.pairwise_cons] at hordered
    rcases List.prefix_or_prefix_of_prefix hfront hfront' with hle | hle
    · exact Nat.le_of_eq (congrArg List.length (hordered.2.1.1 _ hmem' hle)).symm
    · exact hle.length_le

theorem no_sign {text : List Char}
    (h : signSpellings.find? (fun s => s.2.isPrefixOf text) = none) {l : List Char} (hl : IsSign l) :
    ¬l <+: text := by
  obtain ⟨k, hk, hlabel⟩ := hl
  intro hfront
  exact List.find?_eq_none.1 h _ (mem_signSpellings.2 ⟨hk, hlabel⟩)
    (List.isPrefixOf_iff_prefix.2 hfront)

theorem more_characterConstant_le (cs : List Char) : (characterConstant cs).more ≤ 3 := by
  have hclose : ∀ (c : Char) {more : Nat} (problems : List (Problem × List String))
      (rest : List Char), more ≤ 2 → (closeCharacter c more problems rest).more ≤ 3 := by
    intro c more problems rest hmore
    unfold closeCharacter
    split
    · exact Nat.succ_le_succ hmore
    · exact Nat.le_succ_of_le hmore
  unfold characterConstant
  split
  · exact Nat.zero_le 3
  · exact Nat.le_of_ble_eq_true rfl
  · exact Nat.zero_le 3
  · exact Nat.zero_le 3
  · exact Nat.le_of_ble_eq_true rfl
  · split
    · exact hclose _ _ _ (Nat.le_refl 2)
    · exact hclose _ _ _ (Nat.le_refl 2)
  · exact hclose _ _ _ (Nat.le_succ 1)

end Lexeme

open Lexeme

/-! ### Tokens and runs of characters -/

/-- The token is that of a run of characters at the front of a text. -/
inductive Spells (t : Token) (text : List Char) : List Char → Prop
  | word {l : List Char} (run : Longest IsName l text)
    (kind : t.kind = (Kind.reserved? (.ofList l)).getD .identifier)
    (spelling : t.text = some (.ofList l)) (value : t.value = none) : Spells t text l
  | number {l : List Char} (run : Longest IsNumeral l text) (kind : t.kind = .number)
    (spelling : t.text = none)
    (value : t.value = some (if decimal l ≤ Int32.maxValue.toInt then .ofNat (decimal l) else 0)) :
    Spells t text l
  | character {body : List Char} (run : '\'' :: body <+: text) (short : body.length ≤ 3)
    (kind : t.kind = .character) (spelling : t.text = none) : Spells t text ('\'' :: body)
  | sign {l : List Char} (run : Longest IsSign l text) (kind : t.kind ∈ signs)
    (label : t.kind.label.toList = l) (spelling : t.text = none) (value : t.value = none) :
    Spells t text l
  | unknown {c : Char} (run : [c] <+: text) (kind : t.kind = .unknown)
    (none_starts : ∀ l, l <+: text → ¬IsName l ∧ ¬IsNumeral l ∧ ¬IsSign l)
    (spelling : t.text = none) (value : t.value = none) : Spells t text [c]

/-- A lexeme that ends where a run of characters with a property does. -/
theorem spelling_takeWhile {l : Lexeme} {p : Char → Bool} (c : Char) {cs : List Char}
    (h : l.more = (cs.takeWhile p).length) : l.spelling c cs = c :: cs.takeWhile p := by
  rw [spelling, h, ← List.prefix_iff_eq_take.1 ( List.takeWhile_prefix p)]

theorem spells_word (p : Position) {c : Char} (cs : List Char) (hc : c.isAlpha) :
    (Scanned.ofLexeme p (word c cs)).token.Spells (c :: cs) ((word c cs).spelling c cs) := by
  rw [spelling_takeWhile (p := continuesName) c rfl]
  exact .word (longest_takeWhile cs hc) rfl rfl rfl

theorem more_integer (c : Char) (cs : List Char) :
    (integer c cs).more = (cs.takeWhile Char.isDigit).length := by
  simp only [integer]
  split <;> rfl

theorem text_integer (c : Char) (cs : List Char) : (integer c cs).text = none := by
  simp only [integer]
  split <;> rfl

theorem value_integer (c : Char) (cs : List Char) :
    (integer c cs).value = some (if decimal (c :: cs.takeWhile Char.isDigit) ≤ Int32.maxValue.toInt
      then .ofNat (decimal (c :: cs.takeWhile Char.isDigit)) else 0) := by
  simp only [integer]
  split <;> rfl

theorem spells_integer (p : Position) {c : Char} (cs : List Char) (hc : c.isDigit) :
    (Scanned.ofLexeme p (integer c cs)).token.Spells (c :: cs) ((integer c cs).spelling c cs) := by
  rw [spelling_takeWhile c (more_integer c cs)]
  exact .number (longest_takeWhile cs hc) (kind_integer c cs) (text_integer c cs) (value_integer c cs)

theorem text_characterConstant (cs : List Char) : (characterConstant cs).text = none := by
  have hclose : ∀ c more problems rest, (closeCharacter c more problems rest).text = none := by
    intro c more problems rest
    unfold closeCharacter
    split <;> rfl
  unfold characterConstant
  split
  all_goals first | rfl | exact hclose .. | skip
  split <;> exact hclose ..

theorem spells_characterConstant (p : Position) (cs : List Char) :
    (Scanned.ofLexeme p (characterConstant cs)).token.Spells ('\'' :: cs)
      ((characterConstant cs).spelling '\'' cs) := by
  refine .character ((List.prefix_cons_inj _).2 ( List.take_prefix _ cs)) ?_
    (kind_characterConstant cs) (text_characterConstant cs)
  exact Nat.le_trans (List.length_take_le _ cs) (more_characterConstant_le cs)

theorem spells_sign (p : Position) {c : Char} (cs : List Char) (halpha : ¬c.isAlpha)
    (hdigit : ¬c.isDigit) :
    (Scanned.ofLexeme p (sign c cs)).token.Spells (c :: cs) ((sign c cs).spelling c cs) := by
  rcases hfind : signSpellings.find? (fun s => s.2.isPrefixOf (c :: cs)) with _ | ⟨k, l⟩
  · have hsign : sign c cs =
        { kind := .unknown, problems := [(.invalidCharacter, [.ofList [c]])] } := by
      rw [sign, hfind]
    rw [hsign]
    refine .unknown ⟨cs, rfl⟩ rfl (fun l hl => ⟨?_, ?_, fun h => no_sign hfind h hl⟩) rfl rfl
    · rintro ⟨c', _, rfl, hc', -⟩
      exact halpha ((List.cons_prefix_cons.1 hl).1 ▸ hc')
    · rintro ⟨c', _, rfl, hc', -⟩
      exact hdigit ((List.cons_prefix_cons.1 hl).1 ▸ hc')
  · have hsign : sign c cs = { kind := k, more := l.length - 1 } := by
      rw [sign, hfind]
    obtain ⟨hk, hlabel, hlongest⟩ := longest_sign hfind
    have hnil : l ≠ [] := by
      have : ∀ k ∈ signs, k.label.toList ≠ [] := by decide
      exact hlabel ▸ this k hk
    have hrun : (sign c cs).spelling c cs = l := by
      obtain ⟨c', l, rfl⟩ := List.exists_cons_of_ne_nil hnil
      obtain ⟨rfl, hl⟩ := List.cons_prefix_cons.1 hlongest.front
      rw [hsign, spelling, List.length_cons, Nat.add_sub_cancel, ← List.prefix_iff_eq_take.1 hl]
    rw [hrun, hsign]
    exact .sign hlongest hk hlabel rfl rfl

/-- The token of a lexeme is that of the characters that the lexeme takes from the text. -/
theorem spells_read (p : Position) (c : Char) (cs : List Char) :
    (Scanned.ofLexeme p (.read c cs)).token.Spells (c :: cs) ((read c cs).spelling c cs) := by
  unfold Lexeme.read
  split
  · next hc => exact spells_word p cs hc
  · next halpha =>
    split
    · next hc => exact spells_integer p cs hc
    · next hdigit =>
      split
      · next hc =>
        subst hc
        exact spells_characterConstant p cs
      · exact spells_sign p cs halpha hdigit

end MicroJava.Token
