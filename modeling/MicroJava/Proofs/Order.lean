import MicroJava.Text.Position

/-!
# Positions in order

Positions are in the order of the text: a character moves them forward (`Position.lt_after`). The
position behind some text is known from the line feeds in it and from what follows the last of them
(`Position.afterAll_start`).
-/

namespace MicroJava.Position

/-- In front of a position or there. -/
instance : LE Position := ⟨fun p q => p.line < q.line ∨ p.line = q.line ∧ p.column ≤ q.column⟩

/-- In front of a position. -/
instance : LT Position := ⟨fun p q => p.line < q.line ∨ p.line = q.line ∧ p.column < q.column⟩

variable {p q r : Position}

theorem le_iff : p ≤ q ↔ p.line < q.line ∨ p.line = q.line ∧ p.column ≤ q.column := Iff.rfl

theorem lt_iff : p < q ↔ p.line < q.line ∨ p.line = q.line ∧ p.column < q.column := Iff.rfl

theorem le_refl (p : Position) : p ≤ p := .inr ⟨rfl, Nat.le_refl _⟩

theorem le_trans (h : p ≤ q) (h' : q ≤ r) : p ≤ r := by
  rw [le_iff] at h h' ⊢
  omega

theorem le_of_lt (h : p < q) : p ≤ q := by
  rw [lt_iff] at h
  rw [le_iff]
  omega

theorem lt_of_lt_of_le (h : p < q) (h' : q ≤ r) : p < r := by
  rw [lt_iff] at h ⊢
  rw [le_iff] at h'
  omega

theorem lt_after (p : Position) (c : Char) : p < p.after c := by
  rw [lt_iff, after]
  split <;> simp

theorem le_after (p : Position) (c : Char) : p ≤ p.after c := le_of_lt (p.lt_after c)

theorem le_afterAll (p : Position) (cs : List Char) : p ≤ p.afterAll cs := by
  induction cs generalizing p with
  | nil => exact le_refl p
  | cons c cs ih => exact le_trans (le_after p c) (ih (p.after c))

theorem lt_afterAll (p : Position) {cs : List Char} (h : cs ≠ []) : p < p.afterAll cs := by
  obtain ⟨c, cs, rfl⟩ := List.exists_cons_of_ne_nil h
  exact lt_of_lt_of_le (p.lt_after c) ((p.after c).le_afterAll cs)

/-- The position behind some text at the start of a file: one line for each line feed, and one column
for each character behind the last of them. -/
def behind (front : List Char) : Position where
  line := 1 + front.count '\n'
  column := 1 + (front.reverse.takeWhile (· ≠ '\n')).length

theorem behind_append (front : List Char) (c : Char) :
    behind (front ++ [c]) = (behind front).after c := by
  by_cases hc : c = '\n'
  · simp [behind, after, hc, Nat.add_assoc]
  · simp [behind, after, hc, Nat.add_assoc]

theorem afterAll_behind (front cs : List Char) :
    (behind front).afterAll cs = behind (front ++ cs) := by
  induction cs generalizing front with
  | nil => rw [List.append_nil, afterAll_nil]
  | cons c cs ih => rw [afterAll_cons, ← behind_append, ih, List.append_assoc, List.singleton_append]

theorem afterAll_start (cs : List Char) : start.afterAll cs = behind cs := afterAll_behind [] cs

theorem line_behind_le (front : List Char) : (behind front).line ≤ front.length + 1 := by
  have := List.count_le_length (a := '\n') (l := front)
  simp only [behind]
  omega

theorem column_behind_le (front : List Char) : (behind front).column ≤ front.length + 1 := by
  have := (front.reverse.takeWhile_sublist (· ≠ '\n')).length_le
  rw [List.length_reverse] at this
  simp only [behind]
  omega

end MicroJava.Position
