import MicroJava.Token.Scan

/-!
# Gaps

What stands between two lexemes is a gap: blank characters and comments (`Gap`). In a comment, openers
and closers are read from the left without overlap, and each closer closes the comment that was opened
last (`Closes`). The scanner skips exactly a gap, up to the next lexeme, or up to the end of the text
if a comment is left open (`Cursor.skipGap_spec`).
-/

namespace MicroJava

/-- What opens a comment. -/
def opener : List Char := ['/', '*']

/-- What closes a comment. -/
def closer : List Char := ['*', '/']

/-- Text behind the openers of `depth + 1` comments, one in the other, that ends with the closer of
the outermost. -/
inductive Closes : Nat → List Char → Prop
  | last : Closes 0 closer
  | inner {depth : Nat} {cs : List Char} : Closes (depth + 1) cs → Closes depth (opener ++ cs)
  | close {depth : Nat} {cs : List Char} : Closes depth cs → Closes (depth + 1) (closer ++ cs)
  | other {depth : Nat} {c : Char} {cs : List Char} : ¬opener <+: c :: cs → ¬closer <+: c :: cs →
    Closes depth cs → Closes depth (c :: cs)

/-- Text behind the openers of `depth + 1` comments that leaves the outermost open. -/
inductive LeavesOpen : Nat → List Char → Prop
  | nil {depth : Nat} : LeavesOpen depth []
  | inner {depth : Nat} {cs : List Char} : LeavesOpen (depth + 1) cs →
    LeavesOpen depth (opener ++ cs)
  | close {depth : Nat} {cs : List Char} : LeavesOpen depth cs →
    LeavesOpen (depth + 1) (closer ++ cs)
  | other {depth : Nat} {c : Char} {cs : List Char} : ¬opener <+: c :: cs → ¬closer <+: c :: cs →
    LeavesOpen depth cs → LeavesOpen depth (c :: cs)

/-- Blank characters and comments. -/
inductive Gap : List Char → Prop
  | nil : Gap []
  | blank {c : Char} {cs : List Char} : isBlank c → Gap cs → Gap (c :: cs)
  | comment {body cs : List Char} : Closes 0 body → Gap cs → Gap (opener ++ body ++ cs)

/-- A gap whose last comment is left open. -/
def OpenGap (cs : List Char) : Prop :=
  ∃ gap body, cs = gap ++ (opener ++ body) ∧ Gap gap ∧ LeavesOpen 0 body

/-- A text that begins with neither a blank character nor a comment: nothing or a lexeme. -/
structure StartsLexeme (cs : List Char) : Prop where
  notBlank : ∀ c ∈ cs.head?, isBlank c = false
  notComment : ¬opener <+: cs

theorem Gap.of_blanks {cs : List Char} (h : ∀ c ∈ cs, isBlank c) : Gap cs := by
  induction cs with
  | nil => exact .nil
  | cons c cs ih =>
    rw [List.forall_mem_cons] at h
    exact .blank h.1 (ih h.2)

theorem Gap.append {cs ds : List Char} (h : Gap cs) (h' : Gap ds) : Gap (cs ++ ds) := by
  induction h with
  | nil => exact h'
  | blank hc _ ih => exact .blank hc ih
  | @comment body cs hbody _ ih =>
    rw [List.append_assoc]
    exact .comment hbody ih

namespace Cursor

theorem skipBlanks_spec (p : Position) (cs : List Char) :
    ∃ blanks rest, cs = blanks ++ rest ∧ (∀ c ∈ blanks, isBlank c) ∧
      (∀ c ∈ rest.head?, isBlank c = false) ∧ skipBlanks p cs = ⟨p.afterAll blanks, rest⟩ := by
  fun_induction skipBlanks p cs with
  | case1 p => exact ⟨[], [], rfl, by simp, by simp, rfl⟩
  | case2 p c cs hc ih =>
    obtain ⟨blanks, rest, rfl, hblanks, hrest, heq⟩ := ih
    exact ⟨c :: blanks, rest, rfl, List.forall_mem_cons.2 ⟨hc, hblanks⟩, hrest, heq⟩
  | case3 p c cs hc => exact ⟨[], c :: cs, rfl, by simp, by simpa using hc, rfl⟩

theorem opener_front_iff {c : Char} {cs : List Char} :
    opener <+: c :: cs ↔ c = '/' ∧ ∃ ds, cs = '*' :: ds := by
  rw [opener, List.cons_prefix_cons]
  rcases cs with _ | ⟨d, ds⟩ <;> simp [eq_comm]

theorem closer_front_iff {c : Char} {cs : List Char} :
    closer <+: c :: cs ↔ c = '*' ∧ ∃ ds, cs = '/' :: ds := by
  rw [closer, List.cons_prefix_cons]
  rcases cs with _ | ⟨d, ds⟩ <;> simp [eq_comm]

/-- A comment is skipped up to its closer, or to the end of the text if it has none. -/
theorem skipComment_spec (depth : Nat) (p : Position) (cs : List Char) :
    (∃ body rest, cs = body ++ rest ∧ Closes depth body ∧
      skipComment depth p cs = (true, ⟨p.afterAll body, rest⟩)) ∨
    LeavesOpen depth cs ∧ skipComment depth p cs = (false, ⟨p.afterAll cs, []⟩) := by
  fun_induction skipComment depth p cs with
  | case1 => exact .inr ⟨.nil, rfl⟩
  | case2 depth p cs ih =>
    obtain ⟨body, rest, rfl, hbody, heq⟩ | ⟨hopen, heq⟩ := ih
    · exact .inl ⟨opener ++ body, rest, rfl, .inner hbody, heq⟩
    · exact .inr ⟨.inner hopen, heq⟩
  | case3 p cs => exact .inl ⟨closer, cs, rfl, .last, rfl⟩
  | case4 p cs depth ih =>
    obtain ⟨body, rest, rfl, hbody, heq⟩ | ⟨hopen, heq⟩ := ih
    · exact .inl ⟨closer ++ body, rest, rfl, .close hbody, heq⟩
    · exact .inr ⟨.close hopen, heq⟩
  | case5 depth p c cs hopener hcloser ih =>
    have hopener : ¬opener <+: c :: cs := fun h => by
      obtain ⟨rfl, ds, rfl⟩ := opener_front_iff.1 h
      exact hopener ds rfl rfl
    have hcloser : ¬closer <+: c :: cs := fun h => by
      obtain ⟨rfl, ds, rfl⟩ := closer_front_iff.1 h
      exact hcloser ds rfl rfl
    obtain ⟨body, rest, rfl, hbody, heq⟩ | ⟨hopen, heq⟩ := ih
    · have hfront : c :: body <+: c :: (body ++ rest) := List.prefix_append (c :: body) rest
      exact .inl ⟨c :: body, rest, rfl, .other (fun h => hopener (h.trans hfront))
        (fun h => hcloser (h.trans hfront)) hbody, heq⟩
    · exact .inr ⟨.other hopener hcloser hopen, heq⟩

/-- The scanner skips a gap up to the next lexeme, or up to the end of the text if the last comment is
left open. -/
theorem skipGap_spec (c : Cursor) :
    (∃ gap rest, c.rest = gap ++ rest ∧ Gap gap ∧ StartsLexeme rest ∧
      c.skipGap = (⟨c.position.afterAll gap, rest⟩, none)) ∨
    ∃ gap body, c.rest = gap ++ (opener ++ body) ∧ Gap gap ∧ LeavesOpen 0 body ∧
      c.skipGap = (⟨c.position.afterAll c.rest, []⟩, some (c.position.afterAll gap)) := by
  fun_induction skipGap c with
  | case1 c p cs hb c' hc ih =>
    obtain ⟨blanks, rest, hrest, hblanks, -, heq⟩ := skipBlanks_spec c.position c.rest
    obtain ⟨rfl, rfl⟩ := Cursor.mk.inj (hb.symm.trans heq)
    -- blanks and a closed comment; the gap behind them is that of the induction
    obtain ⟨body, rest, rfl, hbody, heq⟩ | ⟨-, heq⟩ := skipComment_spec 0 _ cs
    · obtain rfl := (Prod.mk.inj (hc.symm.trans heq)).2
      have hcomment : Gap (blanks ++ (opener ++ body)) := by
        have := (Gap.of_blanks hblanks).append (.comment hbody .nil)
        rwa [List.append_nil] at this
      have hfront : c.rest = blanks ++ (opener ++ body) ++ rest := by
        rw [hrest, List.append_assoc, List.append_assoc]
        rfl
      have hposition : ∀ ds, ((((c.position.afterAll blanks).after '/').after '*').afterAll
          body).afterAll ds = c.position.afterAll (blanks ++ (opener ++ body) ++ ds) := fun ds => by
        rw [Position.afterAll_append, Position.afterAll_append, Position.afterAll_append]
        rfl
      obtain ⟨gap, rest, rfl, hgap, hstart, heq⟩ | ⟨gap, body', rfl, hgap, hopen, heq⟩ := ih
      · refine .inl ⟨_, rest, hfront.trans (List.append_assoc ..).symm, hcomment.append hgap, hstart, ?_⟩
        rw [heq, hposition]
      · refine .inr ⟨_, body', hfront.trans (List.append_assoc ..).symm, hcomment.append hgap, hopen, ?_⟩
        rw [heq, hposition, hposition, hfront]
    · rw [hc] at heq
      exact absurd (congrArg Prod.fst heq) (by simp)
  | case2 c p cs hb c' hc =>
    obtain ⟨blanks, rest, hrest, hblanks, -, heq⟩ := skipBlanks_spec c.position c.rest
    obtain ⟨rfl, rfl⟩ := Cursor.mk.inj (hb.symm.trans heq)
    obtain ⟨body, rest, rfl, hbody, heq⟩ | ⟨hopen, heq⟩ := skipComment_spec 0 _ cs
    · rw [hc] at heq
      exact absurd (congrArg Prod.fst heq) (by simp)
    · obtain rfl := (Prod.mk.inj (hc.symm.trans heq)).2
      refine .inr ⟨blanks, cs, hrest, Gap.of_blanks hblanks, hopen, ?_⟩
      rw [hrest, Position.afterAll_append]
      rfl
  | case3 c h =>
    obtain ⟨blanks, rest, hrest, hblanks, hfront, heq⟩ := skipBlanks_spec c.position c.rest
    refine .inl ⟨blanks, rest, hrest, Gap.of_blanks hblanks, ⟨hfront, ?_⟩, by rw [heq]⟩
    rintro ⟨cs, rfl⟩
    exact h _ cs heq

/-- Blank characters in front of a lexeme are all that is skipped. -/
theorem skipGap_blanks (p : Position) {blanks rest : List Char} (h : ∀ c ∈ blanks, isBlank c)
    (hstart : StartsLexeme rest) :
    skipGap ⟨p, blanks ++ rest⟩ = (⟨p.afterAll blanks, rest⟩, none) := by
  have hskip : skipBlanks p (blanks ++ rest) = ⟨p.afterAll blanks, rest⟩ := by
    induction blanks generalizing p with
    | nil =>
      rcases rest with _ | ⟨c, cs⟩
      · rfl
      · rw [List.nil_append, skipBlanks, if_neg (by simp [hstart.notBlank c rfl])]
        rfl
    | cons b blanks ih =>
      rw [List.forall_mem_cons] at h
      rw [List.cons_append, skipBlanks, if_pos h.1, ih (p.after b) h.2]
      rfl
  rw [skipGap]
  split
  · next q cs heq =>
    obtain ⟨-, rfl⟩ := Cursor.mk.inj (hskip.symm.trans heq)
    exact absurd ⟨cs, rfl⟩ hstart.notComment
  · rw [hskip]

end Cursor

end MicroJava
