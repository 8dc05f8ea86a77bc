import MicroJava.Proofs.Gaps
import MicroJava.Proofs.Order
import MicroJava.Proofs.Suppression

/-!
# Diagnostics in the order of the source

Diagnostics come from two sides: the scanner finds them in the characters of a token and in front of
it, and the productions report them at the next token. Both are in the order of the text
(`compile_inOrder`), because a token brings its diagnostics when it becomes the next one: what was
reported before stands at the token before it, or in front of that (`Session.InOrder`).
-/

namespace MicroJava

/-! ### Positions -/

namespace Position

/-- Such a position a text of `n` characters may have. -/
structure Within (n : Nat) (p : Position) : Prop where
  line : 1 ≤ p.line
  column : 1 ≤ p.column
  sum : p.line + p.column ≤ n + 2

variable {p q r : Position}

theorem Within.after {n : Nat} (h : p.Within n) (c : Char) : (p.after c).Within (n + 1) := by
  obtain ⟨hline, hcolumn, hsum⟩ := h
  unfold Position.after
  split <;> constructor <;> simp only <;> omega

theorem Within.afterAll {n : Nat} (h : p.Within n) (cs : List Char) :
    (p.afterAll cs).Within (n + cs.length) := by
  induction cs generalizing p n with
  | nil => exact h
  | cons c cs ih =>
    have := ih (h.after c)
    rwa [Nat.add_right_comm] at this

theorem Within.mono {m n : Nat} (h : p.Within m) (hmn : m ≤ n) : p.Within n :=
  ⟨h.line, h.column, by have := h.sum; omega⟩

end Position

/-! ### Scanning goes forward -/

namespace Cursor

/-- Reading goes on from one cursor to the other. -/
def Reaches (c c' : Cursor) : Prop :=
  ∃ cs, c.rest = cs ++ c'.rest ∧ c'.position = c.position.afterAll cs

variable {c c' c'' : Cursor}

theorem Reaches.le (h : c.Reaches c') : c.position ≤ c'.position := by
  obtain ⟨cs, -, hposition⟩ := h
  exact hposition ▸ Position.le_afterAll c.position cs

/-- Such a cursor a text of `n` characters may have. -/
def Within (n : Nat) (c : Cursor) : Prop :=
  ∃ m, c.position.Within m ∧ m + c.rest.length ≤ n

theorem Within.position {n : Nat} (h : c.Within n) : c.position.Within n := by
  obtain ⟨m, hm, hle⟩ := h
  exact hm.mono (Nat.le_of_add_right_le hle)

theorem Reaches.within {n : Nat} (h : c.Reaches c') (hc : c.Within n) : c'.Within n := by
  obtain ⟨cs, hrest, hposition⟩ := h
  obtain ⟨m, hm, hle⟩ := hc
  refine ⟨m + cs.length, hposition ▸ hm.afterAll cs, ?_⟩
  rw [hrest, List.length_append] at hle
  omega

/-- A gap goes forward, and a comment that is not closed stands in it. -/
theorem reaches_skipGap (c : Cursor) :
    c.Reaches c.skipGap.1 ∧ ∀ q, c.skipGap.2 = some q →
      ∃ c₁, c₁.position = q ∧ c.Reaches c₁ ∧ c₁.Reaches c.skipGap.1 := by
  obtain ⟨gap, rest, hrest, -, -, heq⟩ | ⟨gap, body, hrest, -, -, heq⟩ := c.skipGap_spec
  · rw [heq]
    exact ⟨⟨gap, hrest, rfl⟩, by simp⟩
  · rw [heq]
    refine ⟨⟨c.rest, (List.append_nil c.rest).symm, rfl⟩, fun q hq => ?_⟩
    obtain rfl := Option.some.inj hq
    refine ⟨⟨_, opener ++ body⟩, rfl, ⟨gap, hrest, rfl⟩, opener ++ body, (List.append_nil _).symm, ?_⟩
    rw [hrest, Position.afterAll_append]
    rfl

end Cursor

namespace Token

/-- The tokens, with their diagnostics, are in the order of the text behind a position, in front of
the end of a text of `n` characters. -/
def Follows (n : Nat) (last : Position) : Position → List Scanned → Prop
  | p, [] => p ≤ last ∧ last.Within n
  | p, t :: ts => p ≤ t.token.position ∧ t.token.position.Within n ∧
    (∀ d ∈ t.diagnostics, p ≤ d.position ∧ d.position ≤ t.token.position ∧ d.position.Within n) ∧
    t.diagnostics.Pairwise (fun d d' => d.position ≤ d'.position) ∧
    Follows n last t.token.position ts

theorem Follows.of_le {n : Nat} {last p q : Position} {ts : List Scanned} (h : Follows n last q ts)
    (hpq : p ≤ q) : Follows n last p ts := by
  rcases ts with _ | ⟨t, ts⟩
  · exact ⟨Position.le_trans hpq h.1, h.2⟩
  · obtain ⟨hle, hwithin, hdiagnostics, hsorted, hrest⟩ := h
    refine ⟨Position.le_trans hpq hle, hwithin, fun d hd => ?_, hsorted, hrest⟩
    obtain ⟨hd, hd'⟩ := hdiagnostics d hd
    exact ⟨Position.le_trans hpq hd, hd'⟩

theorem follows_scanFrom {n : Nat} {c : Cursor} (hc : c.Within n) (found : List Scanned) :
    ∃ ts last, scanFrom c found = ⟨found.reverse ++ ts, last⟩ ∧
      Follows n last.position c.position ts := by
  fun_induction scanFrom c found with
  | case1 c found p unclosed? hg stop =>
    obtain ⟨hgap, hunclosed⟩ := c.reaches_skipGap
    rw [hg] at hgap hunclosed
    have hp : p.Within n := (hgap.within hc).position
    refine ⟨[stop], stop.token, by simp, hgap.le, hp, fun d hd => ?_, ?_, Position.le_refl p, hp⟩
    · obtain ⟨q, hq, rfl⟩ := List.mem_map.1 hd
      obtain ⟨c₁, rfl, hto, hfrom⟩ := hunclosed q (Option.mem_toList.1 hq)
      exact ⟨hto.le, hfrom.le, (hto.within hc).position⟩
    · rcases unclosed? with _ | q <;> simp [stop, Scanned.ofEnd]
  | case2 c found p ch cs unclosed? hg l ih =>
    have hgap := c.reaches_skipGap.1
    rw [hg] at hgap
    have hlexeme : Cursor.Reaches ⟨p, ch :: cs⟩ ⟨p.afterAll (l.spelling ch cs), l.rest cs⟩ :=
      ⟨l.spelling ch cs, (l.spelling_append_rest ch cs).symm, rfl⟩
    have hp := hgap.within hc
    obtain ⟨ts, last, heq, hfollows⟩ := ih (hlexeme.within hp)
    refine ⟨.ofLexeme p l :: ts, last, by simp [heq], hgap.le, hp.position, fun d hd => ?_, ?_,
      hfollows.of_le hlexeme.le⟩
    · obtain ⟨_, -, rfl⟩ := List.mem_map.1 hd
      exact ⟨hgap.le, Position.le_refl p, hp.position⟩
    · exact List.pairwise_map.2 (List.pairwise_of_forall fun _ _ => Position.le_refl p)

theorem follows_scan (source : String) :
    Follows source.length (scan source).last.position .start (scan source).ahead := by
  have hstart : Cursor.Within source.length (.ofString source) :=
    ⟨0, ⟨Nat.le_refl 1, Nat.le_refl 1, Nat.le_refl 2⟩, by
      simp [Cursor.ofString, String.length_toList]⟩
  obtain ⟨ts, last, heq, hfollows⟩ := follows_scanFrom hstart []
  rw [scan, heq]
  exact hfollows

end Token

/-! ### Reading goes forward -/

namespace Session

/-- What is reported is in order and stands in front of the next token or at it, and the tokens behind
the next one are in order, too. -/
structure InOrder (n : Nat) (s : Session) : Prop where
  reported : s.journal.log.toList.Pairwise fun d d' => d.position ≤ d'.position
  past : ∀ d ∈ s.journal.log.toList, d.position ≤ s.current.position ∧ d.position.Within n
  current : s.current.position.Within n
  ahead : Token.Follows n s.stream.last.position s.current.position s.stream.ahead

variable {n : Nat} {s s' : Session}

theorem log_of_events {e : Event} (h : s'.journal.events = e :: s.journal.events) :
    s'.journal.log.toList = s.journal.log.toList ++ e.diagnostics := by
  simp [Journal.log, h]

theorem InOrder.beside (h : s.InOrder n) (hb : s.Beside s') : s'.InOrder n := by
  obtain ⟨hstream, hcurrent, hjournal⟩ := hb
  exact ⟨hjournal ▸ h.reported, hjournal ▸ hcurrent ▸ h.past, hcurrent ▸ h.current,
    hstream ▸ hcurrent ▸ h.ahead⟩

theorem InOrder.advance (h : s.InOrder n) : s.advance.InOrder n := by
  obtain ⟨⟨_ | ⟨t, ts⟩, last⟩, current, previous, journal, table, assembly, returnType⟩ := s
  · obtain ⟨hreported, hpast, -, hle, hwithin⟩ := h
    refine ⟨?_, fun d hd => ?_, hwithin, Position.le_refl _, hwithin⟩
    all_goals rw [log_of_events (e := .took { token := last }) rfl, Event.diagnostics,
      List.append_nil] at *
    · exact hreported
    · exact ⟨Position.le_trans (hpast d hd).1 hle, (hpast d hd).2⟩
  · obtain ⟨hreported, hpast, -, hle, hwithin, hdiagnostics, hsorted, hfollows⟩ := h
    refine ⟨?_, fun d hd => ?_, hwithin, hfollows⟩
    all_goals rw [log_of_events (e := .took t) rfl, Event.diagnostics] at *
    · refine List.pairwise_append.2 ⟨hreported, hsorted, fun d hd d' hd' => ?_⟩
      exact Position.le_trans (hpast d hd).1 (hdiagnostics d' hd').1
    · rcases List.mem_append.1 hd with hd | hd
      · exact ⟨Position.le_trans (hpast d hd).1 hle, (hpast d hd).2⟩
      · exact (hdiagnostics d hd).2

theorem InOrder.report (h : s.InOrder n) (least : UInt32) (p : Problem) (details : List String) :
    (s.report least p details).InOrder n := by
  have hlog : (s.report least p details).journal.log.toList = s.journal.log.toList ++
      (Event.reported ⟨s.current.position, p, details⟩ (least ≤ s.journal.distance)).diagnostics :=
    log_of_events rfl
  have hhere : ∀ d ∈ (Event.reported ⟨s.current.position, p, details⟩
      (least ≤ s.journal.distance)).diagnostics, d.position = s.current.position := by
    intro d hd
    rw [Event.diagnostics] at hd
    split at hd
    · rw [List.mem_singleton.1 hd]
    · contradiction
  refine ⟨?_, fun d hd => ?_, h.current, h.ahead⟩
  · rw [hlog]
    refine List.pairwise_append.2 ⟨h.reported, ?_, fun d hd d' hd' => ?_⟩
    · rw [Event.diagnostics]
      split <;> simp
    · rw [hhere d' hd']
      exact (h.past d hd).1
  · rw [hlog] at hd
    rcases List.mem_append.1 hd with hd | hd
    · exact h.past d hd
    · rw [hhere d hd]
      exact ⟨Position.le_refl _, h.current⟩

theorem InOrder.resume (h : s.InOrder n) : s.resume.InOrder n := by
  have hlog : s.resume.journal.log.toList = s.journal.log.toList := by
    rw [log_of_events (e := .resumed) rfl, Event.diagnostics, List.append_nil]
  exact ⟨hlog ▸ h.reported, hlog ▸ h.past, h.current, h.ahead⟩

theorem InOrder.start (source : String) (options : Options) :
    (Session.start (Token.scan source) options).InOrder source.length where
  reported := List.Pairwise.nil
  past := fun d hd => absurd hd (List.not_mem_nil (a := d))
  current := ⟨Nat.le_refl 1, Nat.le_refl 1, Nat.le_add_left 2 _⟩
  ahead := Token.follows_scan source

end Session

theorem Course.inOrder {c : Setting} {s s' : Session} {e : Bool} {n : Nat} (h : Course c s e s')
    (hs : s.InOrder n) : s'.InOrder n := by
  induction h with
  | refl => exact hs
  | beside _ hb ih => exact ih.beside hb
  | advance _ _ ih => exact ih.advance
  | report p details _ ih => exact ih.report _ p details
  | skip p _ ih => exact (ih.report _ p []).advance
  | resume _ _ ih => exact ih.resume

open Production

/-- The diagnostics of a text are in the order of their places in the text, whether the scanner or a
production has found them, and no line or column number of a text of so few characters overflows. -/
theorem compile_inOrder {source : String} {options : Options} {r : Compilation}
    (hlength : source.length < 2 ^ 32 - 1) (h : compile source options = .ok r) :
    (r.diagnostics.Pairwise fun d d' => d.position ≤ d'.position) ∧
      ∀ d ∈ r.diagnostics, d.position.line < 2 ^ 32 ∧ d.position.column < 2 ^ 32 := by
  obtain ⟨s, hrun, -, hlog⟩ := runs_of_compile h
  have hs : s.InOrder source.length := by
    obtain ⟨e, s₁, hcourse, hend⟩ := course_sourceFile
      (c := .ofStream options (Token.scan source)) (Session.Ended.start source options)
    have hs₁ := hcourse.inOrder (Session.InOrder.start source options).advance
    have houtcome : (sourceFile.outcome (.ofStream options (Token.scan source))
        (Session.start (Token.scan source) options)).2 = s := congrArg Prod.snd hrun
    rw [houtcome] at hend
    rcases hend with rfl | ⟨-, rfl⟩
    · exact hs₁
    · exact hs₁.advance
  rw [hlog]
  refine ⟨hs.reported, fun d hd => ?_⟩
  obtain ⟨hline, hcolumn, hsum⟩ := (hs.past d hd).2
  omega

/-- A name that is not declared, in front of a comment that is not closed. -/
theorem compile_inOrder_unclosed :
    ∃ r, compile "program P { void main() { x = 1; } } /*" = .ok r ∧
      r.diagnostics.map (·.problem) = [.notFound, .endInComment] ∧
      r.diagnostics.Pairwise fun d d' => d.position ≤ d'.position := by
  have hproblems : (compile "program P { void main() { x = 1; } } /*").toOption.map
      (fun r => r.diagnostics.map (·.problem)) = some [.notFound, .endInComment] := by
    decide +kernel
  rcases hr : compile "program P { void main() { x = 1; } } /*" with f | r
  · simp [hr, Except.toOption] at hproblems
  · rw [hr] at hproblems
    exact ⟨r, rfl, Option.some.inj hproblems, (compile_inOrder (by decide) hr).1⟩

end MicroJava
