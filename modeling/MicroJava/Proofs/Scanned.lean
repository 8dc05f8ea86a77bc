import MicroJava.Token.Scan

/-!
# Scanned tokens

The tokens of a text are those of its lexemes, and behind them the end of the file (`scan_eq`). No
lexeme is the end of the file, and a name has a spelling.
-/

namespace MicroJava.Token

namespace Lexeme

theorem kind_word (c : Char) (cs : List Char) :
    (word c cs).kind = .identifier ∨ (word c cs).kind.isReserved := by
  simp only [word]
  rcases h : Kind.reserved? (String.ofList (c :: cs.takeWhile continuesName)) with _ | k
  · exact .inl rfl
  · exact .inr (Kind.isReserved_of_reserved? h).1

theorem kind_integer (c : Char) (cs : List Char) : (integer c cs).kind = .number := by
  simp only [integer]
  split <;> rfl

theorem kind_closeCharacter (c : Char) (more : Nat) (problems : List (Problem × List String))
    (rest : List Char) : (closeCharacter c more problems rest).kind = .character := by
  unfold closeCharacter
  split <;> rfl

theorem kind_characterConstant (cs : List Char) : (characterConstant cs).kind = .character := by
  unfold characterConstant
  split
  all_goals first | rfl | exact kind_closeCharacter .. | skip
  split <;> exact kind_closeCharacter ..

theorem kind_sign (c : Char) (cs : List Char) :
    (sign c cs).kind ∈ signs ∨ (sign c cs).kind = .unknown := by
  unfold sign
  split
  · next k spelling h =>
    obtain ⟨k', hk', heq⟩ := List.mem_map.1 (List.mem_of_find?_eq_some h)
    obtain rfl := (Prod.mk.inj heq).1
    exact .inl hk'
  · exact .inr rfl

/-- A name has a spelling. -/
theorem text_of_identifier {c : Char} {cs : List Char} (h : (read c cs).kind = .identifier) :
    (read c cs).text.getD "" ≠ "" := by
  unfold read at h ⊢
  split
  · simp [word]
  · rename_i hc
    rw [if_neg hc] at h
    exfalso
    split at h
    · rw [kind_integer] at h
      simp at h
    · split at h
      · rw [kind_characterConstant] at h
        simp at h
      · rcases kind_sign c cs with hs | hs
        · rw [h] at hs
          exact absurd hs (by decide)
        · rw [h] at hs
          simp at hs

theorem kind_ne_endOfFile (c : Char) (cs : List Char) : (read c cs).kind ≠ .endOfFile := by
  unfold read
  split
  · rcases kind_word c cs with h | h
    · simp [h]
    · intro heq
      rw [heq] at h
      exact absurd h (by decide)
  · split
    · simp [kind_integer]
    · split
      · simp [kind_characterConstant]
      · rcases kind_sign c cs with hs | hs
        · intro heq
          rw [heq] at hs
          exact absurd hs (by decide)
        · simp [hs]

end Lexeme

/-- A lexeme behind a gap is read, and scanning goes on behind it. -/
theorem scanFrom_of_lexeme {c : Cursor} {p : Position} {ch : Char} {cs : List Char}
    {unclosed? : Option Position} (h : c.skipGap = (⟨p, ch :: cs⟩, unclosed?)) (found : List Scanned) :
    scanFrom c found = scanFrom
      ⟨p.afterAll ((Lexeme.read ch cs).spelling ch cs), (Lexeme.read ch cs).rest cs⟩
      (.ofLexeme p (.read ch cs) :: found) := by
  rw [scanFrom]
  split
  · next heq => exact absurd (h.symm.trans heq) (by simp)
  · next heq =>
    obtain ⟨rfl, hcs⟩ := Cursor.mk.inj (Prod.mk.inj (h.symm.trans heq)).1
    obtain ⟨rfl, rfl⟩ := List.cons.inj hcs
    rfl

/-- Behind the last gap is the end of the file. -/
theorem scanFrom_of_end {c : Cursor} {p : Position} {unclosed? : Option Position}
    (h : c.skipGap = (⟨p, []⟩, unclosed?)) (found : List Scanned) :
    scanFrom c found =
      ⟨found.reverse ++ [.ofEnd p unclosed?], (Scanned.ofEnd p unclosed?).token⟩ := by
  rw [scanFrom]
  split
  · next heq =>
    obtain ⟨hcursor, rfl⟩ := Prod.mk.inj (h.symm.trans heq)
    obtain ⟨rfl, -⟩ := Cursor.mk.inj hcursor
    rw [← List.reverse_cons]
  · next heq => exact absurd (h.symm.trans heq) (by simp)

/-- The tokens from a cursor on are those of lexemes, up to the end of the file. -/
theorem scanFrom_eq (c : Cursor) (found : List Scanned) :
    ∃ (ts : List Scanned) (p : Position) (unclosed? : Option Position),
      scanFrom c found = ⟨found.reverse ++ ts ++ [.ofEnd p unclosed?],
        (Scanned.ofEnd p unclosed?).token⟩ ∧
        ∀ t ∈ ts, ∃ q ch cs, t = .ofLexeme q (.read ch cs) := by
  fun_induction scanFrom c found with
  | case1 c found p unclosed? hg stop =>
    exact ⟨[], p, unclosed?, by simp [stop], by simp⟩
  | case2 c found p ch cs unclosed? hg l ih =>
    obtain ⟨ts, q, unclosed, heq, hts⟩ := ih
    refine ⟨.ofLexeme p l :: ts, q, unclosed, by simp [heq], ?_⟩
    intro t ht
    rcases List.mem_cons.1 ht with rfl | ht
    · exact ⟨p, ch, cs, rfl⟩
    · exact hts t ht

/-- The tokens of a text are those of its lexemes, and the end of the file. -/
theorem scan_eq (source : String) :
    ∃ (ts : List Scanned) (p : Position) (unclosed? : Option Position),
      scan source = ⟨ts ++ [.ofEnd p unclosed?], (Scanned.ofEnd p unclosed?).token⟩ ∧
        ∀ t ∈ ts, ∃ q ch cs, t = .ofLexeme q (.read ch cs) := by
  exact scanFrom_eq (.ofString source) []

end MicroJava.Token
