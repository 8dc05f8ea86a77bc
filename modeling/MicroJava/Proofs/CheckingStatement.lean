import MicroJava.Proofs.CheckingExpression

/-!
# Checking conditions and simple statements

A condition is checked test by test (`World.Checks.condition`). Of the statements that have no statements
in them, the checks of what they read are put together here: assignments, steps by one and calls, and what
is read, printed and returned.
-/

namespace MicroJava.World.Checks

open Production Static Tree

variable {w : World} {c : Setting} {A : Prop} {F : Token.Kind → Prop} {v u : Value} {x y : Operand}
  {σ τ : Ty}

/-! ### Conditions -/

theorem comparison {o : Comparison} :
    w.Checks A (Runs c Production.comparison) [.word o.kind] F (· = some o) (fun _ : Unit => True)
      fun _ _ => True := by
  rw [Production.comparison]
  refine peek (k := o.kind) (fun _ _ => rfl) ?_
  rw [o.comparisonOf?_kind]
  exact advance (ret rfl (fun _ => ⟨(), trivial⟩) fun _ _ _ => trivial)

/-- Two values are compared if their types allow it. -/
theorem checkComparison {o : Comparison} (hx : A → w.HasType σ x.type)
    (hy : A → w.HasType τ y.type) :
    w.Ensures c A (Production.checkComparison x y (some o)) [] F
      (σ.Comparable τ ∧ (σ.IsReference → o = .eq ∨ o = .ne)) := by
  rw [Production.checkComparison]
  refine comparable hx hy fun b => ite (fun hb => descriptor fun d => ?_) fun hb => ?_
  · refine (reportIf rfl).iff fun hA _ => ?_
    obtain ⟨d', hd', hdσ⟩ := (hx hA.1.1).describes w.models
    obtain rfl := Option.some.inj (hA.2.symm.trans hd')
    have hcomparable := hA.1.2.1 hb
    rw [hdσ.isReference_iff]
    simp only [ne_eq, Option.some.injEq, hcomparable, true_and]
    tauto
  · exact (report rfl).iff fun hA _ => ⟨False.elim, fun h => hb (hA.2.2 h.1)⟩

theorem test {t : Test} {l l' : Label} :
    w.Ensures c A (Production.test l l') t.yield (·.EndsExpression) (TestIsCorrect w.context t) := by
  obtain ⟨e, o, f⟩ := t
  rw [Production.test, Test.yield]
  refine Checks.iff (J := fun _ : Unit => ∃ v, ExpressionIs w.context e v ∧ ∃ σ, v.type? = some σ ∧
    True ∧ ∃ u, ExpressionIs w.context f u ∧ ∃ τ, u.type? = some τ ∧
      (σ.Comparable τ ∧ (σ.IsReference → o = .eq ∨ o = .ne)) ∧ True) ?_ fun _ _ => ?_
  · refine (expression e).bind (fun x v _ => ?_) fun _ _ => o.endsExpression
    refine (load fun hA => hA.2.2).act fun _ σ _ => ?_
    rw [← List.singleton_append]
    refine comparison.ensure (H := fun _ => True) (fun o' ho => ?_)
      fun _ _ => trivial
    subst ho
    rw [← List.append_nil f.yield]
    refine (expression f).bind (fun y u _ => ?_) fun _ hrest => hrest
    refine (load fun hA => hA.2.2).act fun _ τ _ => ?_
    refine (checkComparison (fun hA => hA.1.1.1.2.2) fun hA => hA.2.2).ensureHere fun _ _ => ?_
    exact ret trivial (fun _ => ⟨(), trivial⟩) fun _ _ _ => trivial
  · constructor
    · rintro ⟨v, hv, σ, hσ, -, u, hu, τ, hτ, ⟨h, ho⟩, -⟩
      exact .mk hv hσ hu hτ h ho
    · rintro ⟨hv, hσ, hu, hτ, h, ho⟩
      exact ⟨_, hv, _, hσ, trivial, _, hu, _, hτ, ⟨h, ho⟩, trivial⟩

theorem silent_write {α : Type} {e : Emission Fault α} {s s' : Session} {a : α}
    (h : Runs c (Production.write e) s a s') : s'.mistakes = s.mistakes := by
  obtain ⟨assembly, -, rfl⟩ := runs_write.1 h
  rfl

theorem conjunction_leads {l l' : Label} : ∀ k : Conjunction,
    w.Leads c A (Production.test l l') (conjunctionStep l l') k.yield (·.EndsExpression)
      (fun _ : Unit => ConjunctionIsCorrect w.context k) fun _ _ => True
  | .test t => Leads.first test
  | .and k t => by
    rw [Conjunction.yield]
    refine Leads.iff (J := fun _ : Unit => ∃ _ : Unit, ConjunctionIsCorrect w.context k ∧
      TestIsCorrect w.context t) ((conjunction_leads k).extend (fun b _ => ?_) fun _ _ =>
        (by decide : Token.Kind.and.EndsExpression)) fun _ _ => by simp [ConjunctionIsCorrect]
    rw [conjunctionStep]
    refine check (fun _ _ => rfl) (advance (write fun _ => ?_))
    exact test.map (fun _ _ => rfl) fun b _ _ => ⟨b, rfl, trivial⟩

theorem conjunction {l : Label} {k : Conjunction} :
    w.Ensures c A (Production.conjunction l) k.yield (·.EndsConjunction)
      (ConjunctionIsCorrect w.context k) := by
  rw [Production.conjunction]
  refine write fun l' => (conjunction_leads k).last (fun s b r s' hrun hk => ?_)
    fun _ => Token.Kind.EndsConjunction.endsExpression
  simp only [conjunctionStep, runs_bind, runs_check] at hrun
  obtain ⟨_, s, ⟨rfl, rfl⟩, hrun⟩ := hrun
  rw [decide_eq_false hk.ne_and] at hrun
  exact runs_pure.1 hrun

theorem condition_leads {l : Label} : ∀ k : Condition,
    w.Leads c A (Production.conjunction l) (conditionStep l) k.yield (·.EndsConjunction)
      (fun _ : Unit => ConditionIsCorrect w.context k) fun _ _ => True
  | .conjunction k => Leads.first conjunction
  | .or d k => by
    rw [Condition.yield]
    refine Leads.iff (J := fun _ : Unit => ∃ _ : Unit, ConditionIsCorrect w.context d ∧
      ConjunctionIsCorrect w.context k) ((condition_leads d).extend (fun b _ => ?_) fun _ _ =>
        .inr rfl) fun _ _ => by simp [ConditionIsCorrect]
    rw [conditionStep]
    refine check (fun _ _ => rfl) (advance (write fun _ => write fun _ => ?_))
    exact conjunction.map (fun _ _ => rfl) fun b _ _ => ⟨b, rfl, trivial⟩

theorem condition {k : Condition} :
    w.Ensures c A Production.condition k.yield (· = .rightParen) (ConditionIsCorrect w.context k) := by
  rw [Production.condition]
  refine write fun l => (condition_leads k).last (fun s b r s' hrun hk => ?_) fun _ => .inl
  simp only [conditionStep, runs_bind, runs_check] at hrun
  obtain ⟨_, s, ⟨rfl, rfl⟩, hrun⟩ := hrun
  rw [hk] at hrun
  exact runs_pure.1 hrun

/-! ### Statements that start with a designator -/

theorem loadOldValue {operator : Option Opcode} (hx : A → w.Is x v) :
    w.Ensures c A (Production.loadOldValue x operator) [] F
      (operator.isSome → ∃ τ, v = .variable τ) := by
  rcases operator with _ | op
  · exact ret trivial (fun _ => ⟨(), nofun⟩) fun _ _ _ => trivial
  · refine Checks.iff (J := fun _ : Unit => ∃ τ, v = .variable τ) ?_ fun _ _ => by simp
    rw [Production.loadOldValue, if_neg (by simp)]
    refine ite (fun hvar => ?_) fun hvar => ?_
    · refine attempt (Emission.ends_loadForUpdate x) (not_syntactic_storing x) (fun hA => ?_)
        fun _ _ _ => trivial
      rw [(hx hA).storing_iff]
      simp
    · refine (report rfl).iff fun hA _ => ⟨False.elim, ?_⟩
      rintro ⟨τ, rfl⟩
      exact hvar (hx hA).1

/-- A value is stored where it fits. -/
theorem assignValue {operator : Option Opcode} (hx : A → w.Is x v) (hy : A → w.Is y u) :
    w.Ensures c A (Production.assignValue x y operator) [] F (∃ τ, v = .variable τ ∧ u.Fits τ) := by
  rw [Production.assignValue]
  refine fits hy (fun hA => (hx hA).hasType) fun b => ite (fun hb => ?_) fun hb => ?_
  · refine attempt (Emission.ends_assign x y operator) (fun p hp => ?_) (fun hA => ?_)
      fun _ _ _ => trivial
    · rcases Option.or_eq_some_iff.1 hp with hp | ⟨-, hp⟩
      · exact not_syntactic_loading y p hp
      · exact not_syntactic_storing x p hp
    · rw [Option.or_eq_none_iff, (hy hA.1).loading_iff, (hx hA.1).storing_iff]
      constructor
      · rintro ⟨⟨σ, hσ⟩, τ, rfl⟩
        exact ⟨(), τ, rfl, (hA.2 σ hσ).1 hb⟩
      · rintro ⟨-, τ, rfl, h⟩
        exact ⟨h.exists_type, τ, rfl⟩
  · refine (report rfl).iff fun hA _ => ⟨False.elim, ?_⟩
    rintro ⟨τ, rfl, h⟩
    obtain ⟨σ, hσ⟩ := h.exists_type
    exact hb ((hA.2 σ hσ).2 h)


theorem assignmentOf?_kind (o : Assigning) : ∃ operator, assignmentOf? o.kind = some operator ∧
    (operator.isSome ↔ o ≠ .plain) := by
  rcases o with _ | (_ | _) | (_ | _ | _) <;> exact ⟨_, rfl, by simp⟩

theorem assignment {operator : Option Opcode} {e : Expression} (hx : A → w.Is x v) :
    w.Ensures c A (Production.assignment x operator) e.yield (·.EndsExpression)
      (if operator.isSome then
        v = .variable .int ∧ ∃ u, ExpressionIs w.context e u ∧ u.type? = some .int
      else ∃ τ u, v = .variable τ ∧ ExpressionIs w.context e u ∧ u.Fits τ) := by
  rw [Production.assignment]
  refine Checks.iff (J := fun _ : Unit => (operator.isSome → ∃ τ, v = .variable τ) ∧
    ∃ u, ExpressionIs w.context e u ∧ (operator.isSome → v.carried = .int ∧ u.carried = .int) ∧
      ∃ τ, v = .variable τ ∧ u.Fits τ) ?_ fun _ _ => ?_
  · refine (loadOldValue hx).ensureHere fun _ _ => ?_
    rw [← List.append_nil e.yield]
    refine (expression e).bind (fun y u _ => ?_) fun _ hrest => hrest
    refine Checks.ensureHere ((reportIf rfl).iff fun hA _ => ?_) fun _ _ =>
      assignValue (fun hA => hx hA.1.1.1) fun hA => hA.1.2.2
    have hv := (hx hA.1.1).hasType.int_iff
    have hu := hA.2.2.hasType.int_iff
    tauto
  · split
    · next hsome =>
      simp only [hsome, true_imp_iff]
      constructor
      · rintro ⟨-, u, hu, ⟨hv, hint⟩, τ, rfl, h⟩
        obtain rfl : τ = .int := hv
        exact ⟨rfl, u, hu, Value.type?_eq_some_iff.2 ⟨hint, h.exists_type⟩⟩
      · rintro ⟨rfl, u, hu, hint⟩
        exact ⟨⟨_, rfl⟩, u, hu, ⟨rfl, Value.carried_eq hint⟩, _, rfl, .assign hint (.same _)⟩
    · next hnone =>
      constructor
      · rintro ⟨-, u, hu, -, τ, rfl, h⟩
        exact ⟨τ, u, rfl, hu, h⟩
      · rintro ⟨τ, u, rfl, hu, h⟩
        exact ⟨fun hsome => absurd hsome hnone, u, hu, fun hsome => absurd hsome hnone, τ, rfl, h⟩

theorem increment {step : Int32} (hx : A → w.Is x v) :
    w.Ensures c A (Production.increment x step) [] F (v = .variable .int) := by
  rw [Production.increment]
  refine ite (fun hne => ?_) fun heq => ?_
  · refine (report rfl).iff fun hA _ => ⟨False.elim, ?_⟩
    rintro rfl
    exact hne ((hx hA).hasType.int_iff.2 rfl)
  rw [not_not] at heq
  have hcarried := fun hA => (hx hA).hasType.int_iff.1 heq
  split
  · next slot hplace =>
    refine (silent acts_write fun _ _ _ => silent_write).iff fun hA _ => ⟨fun _ => ?_, fun _ => trivial⟩
    have h := hx hA
    have hc := hcarried hA
    cases v with
    | «variable» τ => simpa [Value.carried] using hc
    | method σ =>
      obtain ⟨id, _, _, hmethod, -⟩ := h
      simp [hplace] at hmethod
    | _ => simp [World.Is, SymbolTable.Denotes, hplace] at h
  · next hplace =>
    refine attempt (Emission.ends_incrementPlace x step hplace) (not_syntactic_storing x)
      (fun hA => ?_) fun _ _ _ => trivial
    rw [(hx hA).storing_iff]
    constructor
    · rintro ⟨τ, rfl⟩
      exact ⟨(), congrArg _ (hcarried hA)⟩
    · rintro ⟨-, rfl⟩
      exact ⟨_, rfl⟩

theorem callAlone {as : Arguments} (hx : A → w.Is x v) :
    w.Ensures c A (Production.callAlone x) as.yield F
      (∃ σ, v = .method σ ∧ ArgumentsFit w.context σ as) := by
  rw [Production.callAlone, ← List.append_nil as.yield]
  refine Checks.post (J := fun _ : Unit => ∃ u, (∃ σ, v = .method σ ∧
    ArgumentsFit w.context σ as ∧ u = Value.temporary σ.result) ∧ True) (D := fun _ _ => True)
    ((wholeCall hx).bind (H := fun _ => True) (fun y u _ => ?_) fun _ _ => trivial) ?_ ?_
  · refine silent acts_popResult fun s b s' hrun => ?_
    rw [runs_ite] at hrun
    split at hrun
    · rw [runs_emit.1 hrun]
      rfl
    · rw [(runs_pure.1 hrun).2]
  · rintro - - ⟨_, ⟨σ, hv, h, -⟩, -⟩
    exact ⟨(), σ, hv, h⟩
  · rintro - - ⟨σ, hv, h⟩
    exact ⟨(), ⟨_, ⟨σ, hv, h, rfl⟩, trivial⟩, fun _ => id⟩

/-- What the rules want of what stands behind the designator of a statement. -/
theorem designatorStatement {d : Designator} {ys : List Terminal} {φ : Value → Prop}
    (haction : ∀ (A : Prop) (v : Value) (x : Operand), (A → w.Is x v) →
      w.Ensures c A (designatorAction x) ys (· = .semicolon) (φ v))
    (hstart : ∀ rest, (nextKind (ys ++ .word .semicolon :: rest)).EndsDesignator) :
    w.Ensures c A Production.designatorStatement (d.yield ++ (ys ++ [.word .semicolon])) F
      (∃ v, DesignatorIs w.context d v ∧ φ v) := by
  rw [Production.designatorStatement]
  refine Checks.iff (J := fun _ : Unit => ∃ v, DesignatorIs w.context d v ∧ φ v ∧ True) ?_
    fun _ _ => by simp
  refine (wholeDesignator d).bind (fun x v _ => ?_) fun rest _ => ?_
  · exact (haction _ v x fun hA => hA.2.2).ensure (fun _ _ => expected) fun _ _ => rfl
  · rw [List.append_assoc]
    exact hstart rest

theorem action_assign {o : Assigning} {e : Expression} (hx : A → w.Is x v) :
    w.Ensures c A (designatorAction x) (.word o.kind :: e.yield) (· = .semicolon)
      (if o = .plain then ∃ τ u, v = .variable τ ∧ ExpressionIs w.context e u ∧ u.Fits τ
      else v = .variable .int ∧ ∃ u, ExpressionIs w.context e u ∧ u.type? = some .int) := by
  obtain ⟨operator, hoperator, hsome⟩ := assignmentOf?_kind o
  rw [designatorAction]
  refine peek (k := o.kind) (fun _ _ => rfl) ?_
  rw [hoperator]
  refine advance (((assignment hx).follow ?_).iff fun _ _ => ?_)
  · rintro _ rfl
    decide
  · by_cases ho : o = .plain
    · rw [if_pos ho, if_neg (by rw [hsome]; exact not_not.2 ho)]
    · rw [if_neg ho, if_pos (hsome.2 ho)]

theorem action_call {as : Arguments} (hx : A → w.Is x v) :
    w.Ensures c A (designatorAction x) as.yield F
      (∃ σ, v = .method σ ∧ ArgumentsFit w.context σ as) := by
  rw [designatorAction]
  exact peek (k := .leftParen) (fun rest _ => as.nextKind_yield rest) (callAlone hx)

theorem action_increment (hx : A → w.Is x v) :
    w.Ensures c A (designatorAction x) [.word .increment] F (v = .variable .int) := by
  rw [designatorAction]
  exact peek (k := .increment) (fun _ _ => rfl) (advance (increment hx))

theorem action_decrement (hx : A → w.Is x v) :
    w.Ensures c A (designatorAction x) [.word .decrement] F (v = .variable .int) := by
  rw [designatorAction]
  exact peek (k := .decrement) (fun _ _ => rfl) (advance (increment hx))

/-! ### Forms of statements -/

section Statements

variable {S : Option Label → Production Unit} {exit : Option Label} {b : Bool} {d : Designator}
  {e : Expression}

theorem statement_assign {o : Assigning} :
    w.Ensures c A (statementOf S exit) (Statement.assign d o e).yield F
      (StatementIsCorrect w.context b (.assign d o e)) := by
  have hyield : (Statement.assign d o e).yield =
      d.yield ++ ((.word o.kind :: e.yield) ++ [.word .semicolon]) := rfl
  rw [statementOf, hyield]
  refine peek (k := .identifier) (fun rest _ => ?_) ?_
  · rw [List.append_assoc]
    exact d.nextKind_yield _
  refine (designatorStatement (fun _ _ _ hx => action_assign hx) fun _ => o.endsDesignator).iff
    fun _ _ => ?_
  constructor
  · rintro ⟨v, hd, h⟩
    by_cases ho : o = .plain
    · rw [if_pos ho] at h
      obtain ⟨τ, u, rfl, hu, h⟩ := h
      exact ho ▸ .assign hd hu h
    · rw [if_neg ho] at h
      obtain ⟨rfl, u, hu, h⟩ := h
      exact .update ho hd hu h
  · rintro (⟨hd, hu, h⟩ | ⟨ho, hd, hu, h⟩ | _ | _ | _)
    · exact ⟨_, hd, by rw [if_pos rfl]; exact ⟨_, _, rfl, hu, h⟩⟩
    · exact ⟨_, hd, by rw [if_neg ho]; exact ⟨rfl, _, hu, h⟩⟩

theorem statement_call {as : Arguments} :
    w.Ensures c A (statementOf S exit) (Statement.call d as).yield F
      (StatementIsCorrect w.context b (.call d as)) := by
  rw [statementOf, Statement.yield, List.append_assoc]
  refine peek (k := .identifier) (fun rest _ => ?_) ?_
  · rw [List.append_assoc]
    exact d.nextKind_yield _
  refine (designatorStatement (fun _ _ _ hx => action_call hx) fun rest => ?_).iff fun _ _ => ?_
  · rw [as.nextKind_yield]
    decide
  · constructor
    · rintro ⟨_, hd, σ, rfl, h⟩
      exact .call hd h
    · rintro (_ | _ | ⟨hd, h⟩ | _ | _)
      exact ⟨_, hd, _, rfl, h⟩

theorem statement_increment :
    w.Ensures c A (statementOf S exit) (Statement.increment d).yield F
      (StatementIsCorrect w.context b (.increment d)) := by
  have hyield : (Statement.increment d).yield =
      d.yield ++ ([.word .increment] ++ [.word .semicolon]) := rfl
  rw [statementOf, hyield]
  refine peek (k := .identifier) (fun rest _ => ?_) ?_
  · rw [List.append_assoc]
    exact d.nextKind_yield _
  refine (designatorStatement (fun _ _ _ hx => action_increment hx) fun _ =>
    (by decide : Token.Kind.increment.EndsDesignator)).iff fun _ _ => ?_
  constructor
  · rintro ⟨_, hd, rfl⟩
    exact .increment hd
  · rintro (_ | _ | _ | hd | _)
    exact ⟨_, hd, rfl⟩

theorem statement_decrement :
    w.Ensures c A (statementOf S exit) (Statement.decrement d).yield F
      (StatementIsCorrect w.context b (.decrement d)) := by
  have hyield : (Statement.decrement d).yield =
      d.yield ++ ([.word .decrement] ++ [.word .semicolon]) := rfl
  rw [statementOf, hyield]
  refine peek (k := .identifier) (fun rest _ => ?_) ?_
  · rw [List.append_assoc]
    exact d.nextKind_yield _
  refine (designatorStatement (fun _ _ _ hx => action_decrement hx) fun _ =>
    (by decide : Token.Kind.decrement.EndsDesignator)).iff fun _ _ => ?_
  constructor
  · rintro ⟨_, hd, rfl⟩
    exact .decrement hd
  · rintro (_ | _ | _ | _ | hd)
    exact ⟨_, hd, rfl⟩

end Statements

/-! ### Reading, printing and returning -/

theorem inputOutput?_isSome_iff {t : TypeId} (h : w.HasType τ t) :
    (inputOutput? t).isSome ↔ τ.IsPrintable := by
  rw [Ty.IsPrintable, ← h.int_iff, ← h.char_iff, inputOutput?]
  split
  · simp [*]
  · split <;> simp [*]

theorem readInto (hx : A → w.Is x v) :
    w.Ensures c A (Production.readInto x) [] F (∃ τ, v = .variable τ ∧ τ.IsPrintable) := by
  rw [Production.readInto]
  have hprintable := fun hA => inputOutput?_isSome_iff (hx hA).hasType
  split
  · next input _ hio =>
    refine emit (attempt (Emission.ends_store x) (not_syntactic_storing x) (fun hA => ?_)
      fun _ _ _ => trivial)
    rw [(hx hA).storing_iff]
    constructor
    · rintro ⟨τ, rfl⟩
      exact ⟨(), τ, rfl, (hprintable hA).1 (by rw [hio]; rfl)⟩
    · rintro ⟨-, τ, rfl, -⟩
      exact ⟨τ, rfl⟩
  · next hio =>
    refine (report rfl).iff fun hA _ => ⟨False.elim, ?_⟩
    rintro ⟨τ, rfl, hτ⟩
    have h := (hprintable hA).2 hτ
    simp [hio] at h

theorem printWidth_none : w.Checks A (Runs c printWidth) [] (· = .rightParen) (fun _ => True)
    (fun _ : Unit => True) fun _ _ => True := by
  rw [printWidth]
  refine setting (check_ne (fun rest hrest => ?_) (ret trivial (fun _ => ⟨(), trivial⟩)
    fun _ _ _ => trivial))
  rw [List.nil_append, hrest]
  decide

theorem printWidth_some {k : Int32} : w.Checks A (Runs c printWidth) [.word .comma, .number k] F
    (fun _ => True) (fun _ : Unit => True) fun _ _ => True := by
  rw [printWidth]
  refine setting (check (fun _ _ => rfl) (advance (check (fun _ _ => rfl) ?_)))
  have hreturn : w.Checks A (Runs c (do return ← literal)) [.number k] F (fun _ => True)
      (fun _ : Unit => True) fun _ _ => True :=
    number (ret trivial (fun _ => ⟨(), trivial⟩) fun _ _ _ => trivial)
  simpa only [bind_pure, if_true] using hreturn

theorem silent_emitPrint {t : TypeId} {s s' : Session} {b : Unit} (h : Runs c (emitPrint t) s b s') :
    s'.mistakes = s.mistakes := by
  unfold emitPrint at h
  split at h
  · rw [runs_emit.1 h]
    rfl
  · rw [(runs_pure.1 h).2]

/-- A print statement, whatever its width is. -/
theorem printStatement {e : Expression} (ws : List Terminal)
    (hws : ∀ A : Prop, w.Checks A (Runs c printWidth) ws (· = .rightParen) (fun _ => True)
      (fun _ : Unit => True) fun _ _ => True)
    (hstart : ∀ rest, (nextKind (ws ++ .word .rightParen :: rest)).EndsExpression) :
    w.Ensures c A Production.printStatement (.word .printWord :: .word .leftParen ::
        (e.yield ++ (ws ++ [.word .rightParen, .word .semicolon]))) F
      (∃ v τ, ExpressionIs w.context e v ∧ v.type? = some τ ∧ τ.IsPrintable) := by
  rw [Production.printStatement]
  refine advance (expect (Checks.iff (J := fun _ : Unit => ∃ v, ExpressionIs w.context e v ∧
    v.carried.IsPrintable ∧ ∃ τ, v.type? = some τ ∧ True ∧ True) ?_ fun _ _ => ?_))
  · refine (expression e).bind (fun x v _ => ?_) fun rest _ => ?_
    · refine Checks.ensureHere ((reportIf rfl).iff fun hA _ => ?_) fun _ _ => ?_
      · rw [← inputOutput?_isSome_iff hA.2.2.hasType]
        cases inputOutput? x.type <;> simp
      · refine (load fun hA => hA.1.2.2).act fun _ τ _ => ?_
        refine (hws _).ensure (fun _ _ => write fun _ => ?_) fun _ _ => rfl
        exact skip acts_emitPrint (fun _ _ _ => silent_emitPrint) fun _ => expect expected
    · rw [List.append_assoc]
      exact hstart _
  · constructor
    · rintro ⟨v, hv, hprintable, τ, hτ, -⟩
      exact ⟨v, τ, hv, hτ, Value.carried_eq hτ ▸ hprintable⟩
    · rintro ⟨v, τ, hv, hτ, hprintable⟩
      exact ⟨v, hv, (Value.carried_eq hτ).symm ▸ hprintable, τ, hτ, trivial, trivial⟩

theorem returnOperand {t : TypeId} (hx : A → w.Is x v) (ht : A → w.HasType τ t) :
    w.Ensures c A (Production.returnOperand x t) [] F (τ ≠ .void ∧ v.Fits τ) := by
  rw [Production.returnOperand]
  refine ite (fun hvoid => ?_) fun hvoid => ?_
  · refine (report rfl).iff fun hA _ => ⟨False.elim, fun h => h.1 ?_⟩
    exact (ht hA).void_iff.1 hvoid
  · refine fits hx ht fun fitting => ?_
    refine Checks.post (J := fun _ : Ty => ∃ σ, v.type? = some σ ∧ v.Fits τ) (D := fun _ _ => True)
      ?_ (fun hA _ ⟨_, _, h⟩ => ⟨(), fun heq => hvoid ((ht hA.1).void_iff.2 heq), h⟩) fun _ _ h => ?_
    · refine (load fun hA => hx hA.1).act fun _ σ _ => ?_
      refine (reportIf rfl).post (fun hA _ hb => ⟨.int, ?_⟩) fun hA _ hb => ⟨(), ?_, fun _ _ => trivial⟩
      · exact (hA.1.2 σ hA.2.1).1 (by simpa using hb)
      · simpa using (hA.1.2 σ hA.2.1).2 hb
    · obtain ⟨σ, hσ⟩ := h.2.exists_type
      exact ⟨.int, ⟨σ, hσ, h.2⟩, fun _ _ => trivial⟩

theorem returnNone {t : TypeId} (ht : A → w.HasType τ t) :
    w.Ensures c A (returnValue t) [] (· = .semicolon) (τ = .void) := by
  rw [returnValue]
  refine checkAny (b := false) (fun rest hrest => ?_) ((reportIf rfl).iff fun hA _ => ?_)
  · rw [List.nil_append, hrest]
    rfl
  · rw [not_not, (ht hA).void_iff]

theorem returnSome {t : TypeId} {e : Expression} (ht : A → w.HasType τ t) :
    w.Ensures c A (returnValue t) e.yield (· = .semicolon)
      (τ ≠ .void ∧ ∃ v, ExpressionIs w.context e v ∧ v.Fits τ) := by
  rw [returnValue]
  refine checkAny (b := true) (fun rest _ => e.nextKind_yield rest) ?_
  refine Checks.iff (J := fun _ : Unit => ∃ v, ExpressionIs w.context e v ∧ τ ≠ .void ∧ v.Fits τ) ?_
    fun _ _ => ?_
  · rw [← List.append_nil e.yield]
    refine (expression e).bind (fun x v _ => returnOperand (fun hA => hA.2.2) fun hA => ht hA.1)
      fun rest hrest => ?_
    rw [List.nil_append, hrest]
    decide
  · tauto

theorem returnStatement {ys : List Terminal} {φ : Ty → Prop}
    (hvalue : ∀ (A : Prop) (t : TypeId), (A → w.HasType w.context.result t) →
      w.Ensures c A (returnValue t) ys (· = .semicolon) (φ w.context.result)) :
    w.Ensures c A Production.returnStatement (.word .returnWord :: (ys ++ [.word .semicolon])) F
      (φ w.context.result) := by
  rw [Production.returnStatement]
  refine advance (Checks.iff (J := fun _ : Unit => φ w.context.result ∧ True) ?_ fun _ _ => by simp)
  refine returnType (g := fun t => do
    returnValue t
    Production.emit .exit
    Production.emit .ret
    Production.expect .semicolon) fun t => ?_
  refine (hvalue _ t fun hA => hA.2).ensure (fun _ _ => emit (emit expected)) fun _ _ => rfl

end MicroJava.World.Checks
