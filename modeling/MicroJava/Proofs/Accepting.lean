import MicroJava.Proofs.ObeyingProgram
import MicroJava.Proofs.SourceFile

/-!
# Which texts are accepted

A text without lexical errors is a program exactly if no syntactic problem is reported
(`compile_recognizes`), and the program keeps the static rules exactly if there are no diagnostics
(`compile_accepts`).
-/

namespace MicroJava

open Production Static

variable {source : String} {options : Options} {q : Tree.Program} {s : Session} {u : Unit}

/-- The table of the language names the types of the language. -/
theorem predeclared_namesTypes : Static.Scope.NamesTypes predeclared := by
  intro n τ hn
  simp only [predeclared, List.mem_cons, Prod.mk.injEq, Denotation.type.injEq] at hn
  rcases hn with ⟨-, rfl⟩ | ⟨-, rfl⟩ | hn
  · exact .inl rfl
  · exact .inr (.inl rfl)
  · simp at hn

/-- Before the first token, only the names of the language are known. -/
theorem Session.agrees_start (source : String) (options : Options) :
    (start (Token.scan source) options).knowledge.Agrees (fun _ => none)
      ⟨predeclared, [], [], .void⟩ where
  table := SymbolTable.initial_agrees
  result := rfl
  names := fun _ hΔ => List.mem_singleton.1 hΔ ▸ predeclared_namesTypes
  sound := .initial
  predeclared := fun _ _ => rfl

/-- The run of a program has no slip, and no mistake exactly if the program keeps the static rules. -/
theorem mistakes_of_derives (hq : q.Derives source)
    (h : Runs (.ofStream options (Token.scan source)) sourceFile
      (.start (Token.scan source) options) u s) :
    s.slips = 0 ∧ (s.mistakes = 0 ↔ ProgramIsCorrect options q) := by
  obtain ⟨s₂, hprogram, hs⟩ := runs_sourceFile h
  have hahead : (Session.start (Token.scan source) options).advance.ahead = q.yield ++ [] := by
    have heq := (Session.terminals_eq source options).symm.trans hq.2
    rw [List.append_nil]
    exact List.append_cancel_right heq
  have hobeyed := (Obeys.program (F := fun _ => True) hq.1 hprogram
    (Session.Named.start source options).advance hahead trivial).2
  have hentry : (Session.start (Token.scan source) options).advance.knowledge.entry = none := rfl
  have hknows := And.intro (Session.agrees_start source options) hentry
  have hkind : s₂.current.kind = .endOfFile := by
    rw [Session.kind_eq, hobeyed.takes.ahead]
    rfl
  obtain rfl : s = s₂.advance := (hs.resolve_right fun h => h.1 hkind).2
  have hslips : (Session.start (Token.scan source) options).advance.slips = 0 :=
    Session.slips_advance
  have hmistakes : (Session.start (Token.scan source) options).advance.mistakes = 0 :=
    Session.mistakes_advance _
  rw [Session.slips_advance, Session.mistakes_advance, hobeyed.takes.slips]
  refine ⟨hslips, fun hm => ?_, fun hcorrect => ?_⟩
  · obtain ⟨-, hcorrect⟩ := hobeyed.sound hknows (hm.trans hmistakes.symm)
    exact hcorrect
  · exact (hobeyed.complete hknows () hcorrect).1.trans hmistakes

/-- Where every report is kept, a text without lexical errors is a program exactly if none of the
reports is syntactic. -/
theorem compile_recognizes (hdistance : options.reportDistance = 0)
    (hcorrect : LexicallyCorrect source) {r : Compilation} (h : compile source options = .ok r) :
    (∃ d ∈ r.diagnostics, d.problem.isSyntactic) ↔ ¬∃ q : Tree.Program, q.Derives source := by
  obtain ⟨s, hrun, -, hlog⟩ := runs_of_compile h
  have hreported := reported_of_runs hrun (.inl hdistance)
  rw [hdistance] at hreported
  rw [hlog, Session.exists_syntactic_iff hreported (quiet_of_runs hrun hcorrect), ne_eq, not_iff_not]
  exact ⟨derives_of_slips hrun, fun ⟨q, hq⟩ => (mistakes_of_derives hq hrun).1⟩

/-- A number is no statement. -/
theorem compile_recognizes_number :
    LexicallyCorrect "program P { void main() { 1; } }" ∧
      ¬∃ q : Tree.Program, q.Derives "program P { void main() { 1; } }" := by
  have hcorrect : LexicallyCorrect "program P { void main() { 1; } }" := by decide +kernel
  have hslip : (compile "program P { void main() { 1; } }" { reportDistance := 0 }).toOption.map
      (fun r => r.diagnostics.any (·.problem.isSyntactic)) = some true := by
    decide +kernel
  rcases hr : compile "program P { void main() { 1; } }" { reportDistance := 0 } with f | r
  · simp [hr, Except.toOption] at hslip
  · rw [hr] at hslip
    exact ⟨hcorrect, (compile_recognizes rfl hcorrect hr).1 (List.any_eq_true.1 (Option.some.inj hslip))⟩

/-- A program without lexical errors has no diagnostics exactly if it keeps the static rules, as long as
there are too few tokens for the distance between reports to start again from zero. -/
theorem compile_accepts (hq : q.Derives source) (hcorrect : LexicallyCorrect source)
    (hdistance : options.reportDistance.toNat < 2 ^ 31)
    (htokens : (Token.scan source).ahead.length < 2 ^ 31) {r : Compilation}
    (h : compile source options = .ok r) : r.diagnostics = [] ↔ ProgramIsCorrect options q := by
  obtain ⟨s, hrun, -, hlog⟩ := runs_of_compile h
  have hreported := reported_of_runs hrun (.inr (by omega))
  rw [hlog, Session.log_eq_nil_iff hreported (quiet_of_runs hrun hcorrect)]
  exact (mistakes_of_derives hq hrun).2

/-- A program that keeps the rules. -/
theorem compile_accepts_assignment :
    let source := "program P int x; { void main() { x = 1; } }"
    let q : Tree.Program := ⟨"P", [.vars ⟨⟨"int", false⟩, .last "x"⟩],
      [⟨none, "main", none, [], .cons (.assign (.name "x") .plain (.term (.factor (.number 1)))) .nil⟩]⟩
    q.Derives source ∧ LexicallyCorrect source ∧ ProgramIsCorrect {} q := by
  intro source q
  have hq : q.Derives source := by
    refine ⟨fun m hm => ?_, by decide +kernel⟩
    obtain rfl := List.mem_singleton.1 hm
    exact ⟨trivial, trivial⟩
  have hcorrect : LexicallyCorrect source := by decide +kernel
  have hnone : (compile source {}).toOption.map (·.diagnostics) = some [] := by decide +kernel
  rcases hr : compile source {} with f | r
  · simp [hr, Except.toOption] at hnone
  · rw [hr] at hnone
    exact ⟨hq, hcorrect, (compile_accepts hq hcorrect (by decide) (by decide +kernel) hr).1
      (Option.some.inj hnone)⟩

end MicroJava
