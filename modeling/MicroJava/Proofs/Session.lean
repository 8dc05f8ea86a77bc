import MicroJava.Production.Session

/-!
# Sessions

How many mistakes a session has seen, which tells whether a production has found one, and what is
known of the tokens that are still ahead.
-/

namespace MicroJava

/-- The event is a report, kept or not. -/
def Event.isReport : Event → Bool
  | .reported .. => true
  | _ => false

namespace Session

variable (s : Session)

/-- The session with a report at the next token, if there is a mistake. -/
def reportIf (mistake : Prop) [Decidable mistake] (least : UInt32) (p : Problem)
    (details : List String) : Session :=
  if mistake then s.report least p details else s

@[simp] theorem previous_advance : s.advance.previous = s.current := rfl

/-- How many mistakes were reported. -/
def mistakes : Nat := s.journal.events.countP Event.isReport

@[simp] theorem mistakes_advance : s.advance.mistakes = s.mistakes := by
  simp [mistakes, advance, Journal.took, Event.isReport]

@[simp] theorem mistakes_resume : s.resume.mistakes = s.mistakes := by
  simp [mistakes, resume, Journal.resume, Event.isReport]

@[simp] theorem mistakes_report (least : UInt32) (p : Problem) (details : List String) :
    (s.report least p details).mistakes = s.mistakes + 1 := by
  simp [mistakes, report, Journal.report, List.countP_cons, Event.isReport]

/-- Every name among the tokens has a spelling, and behind them the file ends for ever. -/
structure Named : Prop where
  current : s.current.kind = .identifier → s.current.name ≠ ""
  ahead : ∀ t ∈ s.stream.ahead, t.token.kind = .identifier → t.token.name ≠ ""
  last : s.stream.last.kind = .endOfFile

theorem Named.advance {s : Session} (h : s.Named) : s.advance.Named := by
  obtain ⟨⟨ahead, last⟩, current, previous, journal, table, assembly, returnType⟩ := s
  rcases ahead with _ | ⟨t, ts⟩
  · refine ⟨fun hk => ?_, h.ahead, h.last⟩
    have hlast : last.kind = .endOfFile := h.last
    have hk : last.kind = .identifier := hk
    rw [hlast] at hk
    contradiction
  · exact ⟨h.ahead t (by simp), fun t' ht' => h.ahead t' (List.mem_cons_of_mem _ ht'), h.last⟩

end Session

end MicroJava
