import MicroJava.Proofs.CheckingCall

/-!
# Checking expressions

Expressions are taken and checked by their productions, at any depth of nesting
(`World.Checks.expression`). There is one lemma for each form of the grammar, which is given what is known
of the parts; the induction over the tree puts them together.
-/

namespace MicroJava.World

open Static Tree

variable {w : World} {τ : Ty} {t : TypeId}

namespace Checks

open Production

variable {c : Setting} {A : Prop} {F : Token.Kind → Prop} {v : Value} {x y : Operand}
  {J : Value → Prop} {E : Production Operand} {xs : List Terminal} {k : Token.Kind} {op : Opcode}

/-! ### Factors -/

theorem newArray {n : String} (ht : A → w.Names n τ t) (hE : w.Gives c True E xs (·.EndsExpression) J) :
    w.Checks A (Runs c (arrayCreation E t))
      (.word .leftBracket :: (xs ++ [.word .rightBracket])) F (fun _ => True)
      (fun u => (∃ v, J v ∧ v.type? = some .int) ∧ u = .temporary (.array τ)) w.Is := by
  rw [arrayCreation]
  refine advance (Checks.iff (J := fun u => ∃ _ : Unit, (∃ v, J v ∧ v.type? = some .int) ∧
    ∃ _ : Unit, True ∧ u = Value.temporary (.array τ)) ?_ fun _ u => by simp)
  refine (loadInteger hE rfl).bind (fun _ _ _ => expect (write fun _ => ?_)) fun _ _ =>
    (by decide : Token.Kind.rightBracket.EndsExpression)
  refine (arrayOf fun hA => ht hA.1).act fun a _ _ => ?_
  exact ret trivial (fun _ => ⟨_, rfl⟩) fun hA u hu => hu ▸ ⟨rfl, hA.2.2⟩

theorem newObject {n : String} (ht : A → w.Names n τ t) :
    w.Checks A (Runs c (objectCreation t)) [] F (fun _ => True)
      (fun u => ∃ k, τ = .object k ∧ u = .temporary (.object k)) w.Is := by
  rw [objectCreation]
  refine descriptor fun d => ?_
  have hd : A ∧ w.table.types.descriptor? t = some d → Types.Describes d τ := by
    rintro ⟨hA, hd⟩
    obtain ⟨d', hd', hdτ⟩ := (ht hA).type.describes w.models
    obtain rfl := Option.some.inj (hd.symm.trans hd')
    exact hdτ
  have hnamed := fun hA => w.named n τ (ht hA).context
  dsimp only
  refine ite (fun hclass => write fun _ => ret trivial (fun hA => ?_) fun hA u hu => ?_)
    fun hclass => ?_
  · have hdτ := hd hA
    rcases hnamed hA.1 with rfl | rfl | ⟨k, rfl⟩
    · simp [show d = .int from hdτ, Descriptor.isClass] at hclass
    · simp [show d = .char from hdτ, Descriptor.isClass] at hclass
    · exact ⟨_, k, rfl, rfl⟩
  · obtain ⟨k, rfl, rfl⟩ := hu
    exact ⟨rfl, (ht hA.1).type⟩
  · -- no other type with a name goes without a report
    have hclass' : A ∧ w.table.types.descriptor? t = some d → ∀ k, τ ≠ .object k := by
      rintro hA k rfl
      obtain ⟨ids, rfl⟩ := hd hA
      simp [Descriptor.isClass] at hclass
    refine refuted_then ((reportIf rfl).iff fun hA _ => ?_)
      (fun hA _ hu => hu.elim fun k hk => hclass' hA k hk.1) fun _ _ => ret trivial False.elim False.elim
    rw [not_not, (ht hA.1).type.void_iff]
    rcases hnamed hA.1 with rfl | rfl | ⟨k, rfl⟩ <;> simp

theorem factor_object {n : String} :
    w.Gives c A (Production.factor E) (Factor.object n).yield (·.EndsFactor)
      (FactorIs w.context (.object n)) := by
  rw [Production.factor, Factor.yield, creation]
  refine peek (k := .newWord) (fun _ _ => rfl) (advance ?_)
  refine Checks.iff (J := fun u => ∃ τ, w.context.lookup n = some (.type τ) ∧
    ∃ k, τ = .object k ∧ u = Value.temporary (.object k)) ?_ fun _ u => ?_
  · rw [← List.append_nil [Terminal.name n]]
    refine namedType.bind (H := fun _ => True) (fun t τ _ => ?_) fun _ _ => trivial
    refine check_ne (fun rest hrest => ?_) (newObject fun hA => hA.2.2)
    exact hrest.1.2
  · constructor
    · rintro ⟨_, hn, k, rfl, rfl⟩
      exact .object hn
    · rintro (_ | _ | _ | _ | hn | _ | _)
      exact ⟨_, hn, _, rfl, rfl⟩

theorem factor_array {n : String} {e : Expression}
    (hE : w.Gives c True E e.yield (·.EndsExpression) (ExpressionIs w.context e)) :
    w.Gives c A (Production.factor E) (Factor.array n e).yield F
      (FactorIs w.context (.array n e)) := by
  rw [Production.factor, Factor.yield, creation]
  refine peek (k := .newWord) (fun _ _ => rfl) (advance ?_)
  refine Checks.iff (J := fun u => ∃ τ, w.context.lookup n = some (.type τ) ∧
    (∃ v, ExpressionIs w.context e v ∧ v.type? = some .int) ∧ u = Value.temporary (.array τ)) ?_
    fun _ u => ?_
  · rw [← List.singleton_append]
    refine namedType.bind (H := fun _ => True) (fun t τ _ => ?_)
      fun _ _ => trivial
    exact check (fun _ _ => rfl) (newArray (fun hA => hA.2.2) hE)
  · constructor
    · rintro ⟨τ, hn, ⟨v, hv, hint⟩, rfl⟩
      exact .array hn hv hint
    · rintro (_ | _ | _ | _ | _ | ⟨hn, hv, hint⟩ | _)
      exact ⟨_, hn, ⟨_, hv, hint⟩, rfl⟩

theorem factor_number {k : Int32} :
    w.Gives c A (Production.factor E) (Factor.number k).yield F
      (FactorIs w.context (.number k)) := by
  rw [Production.factor, Factor.yield]
  refine peek (k := .number) (fun _ _ => rfl) (number (ret trivial ?_ ?_))
  · exact fun _ => ⟨_, .number k⟩
  · rintro - _ (_ | _ | ⟨_⟩ | _ | _ | _ | _)
    exact ⟨rfl, rfl⟩

theorem factor_character {k : Int32} :
    w.Gives c A (Production.factor E) (Factor.character k).yield F
      (FactorIs w.context (.character k)) := by
  rw [Production.factor, Factor.yield]
  refine peek (k := .character) (fun _ _ => rfl) (character (ret trivial ?_ ?_))
  · exact fun _ => ⟨_, .character k⟩
  · rintro - _ (_ | _ | _ | ⟨_⟩ | _ | _ | _)
    exact ⟨rfl, rfl⟩

theorem factor_parentheses {e : Expression}
    (hE : w.Gives c True E e.yield (·.EndsExpression) (ExpressionIs w.context e)) :
    w.Gives c A (Production.factor E) (Factor.parentheses e).yield F
      (FactorIs w.context (.parentheses e)) := by
  rw [Production.factor, Factor.yield]
  refine peek (k := .leftParen) (fun _ _ => rfl) (advance ?_)
  refine Checks.iff (J := fun u => ∃ v, ExpressionIs w.context e v ∧ u = v) ?_ fun _ u => ?_
  · refine hE.anywhere.bind (fun x v _ => expect (ret trivial (fun _ => ⟨v, rfl⟩) fun hA u hu => ?_))
      fun _ _ => (by decide : Token.Kind.rightParen.EndsExpression)
    exact hu ▸ hA.2.2
  · constructor
    · rintro ⟨v, hv, rfl⟩
      exact .parentheses hv
    · rintro (_ | _ | _ | _ | _ | _ | hv)
      exact ⟨u, hv, rfl⟩

theorem factor_designator {d : Designator}
    (hd : w.Leads c A Production.namedOperand (designatorStep E) d.yield (fun _ => True)
      (DesignatorIs w.context d) w.Is) :
    w.Gives c A (Production.factor E) (Factor.designator d).yield (·.EndsFactor)
      (FactorIs w.context (.designator d)) := by
  rw [Production.factor, Factor.yield]
  refine peek (k := .identifier) (fun rest _ => d.nextKind_yield rest) ?_
  change w.Gives c A (designatorFactor E) d.yield _ _
  rw [designatorFactor, ← List.append_nil d.yield]
  refine Checks.iff (J := fun u => ∃ v, DesignatorIs w.context d v ∧ u = v) ?_ fun _ u => ?_
  · refine (Checks.designator hd).bind (fun x v _ => ?_) fun _ hF => hF.1
    exact check_ne (fun _ hrest => hrest.2) (ret trivial (fun _ => ⟨v, rfl⟩) fun hA u hu => hu ▸ hA.2.2)
  · constructor
    · rintro ⟨v, hv, rfl⟩
      exact .designator hv
    · rintro (hv | _ | _ | _ | _ | _ | _)
      exact ⟨u, hv, rfl⟩

theorem factor_call {d : Designator} {as : Arguments}
    (hd : w.Leads c A Production.namedOperand (designatorStep E) d.yield (fun _ => True)
      (DesignatorIs w.context d) w.Is)
    (has : ∀ {A v x}, (A → w.Is x v) → w.Gives c A (Production.call E x) as.yield F fun u =>
      ∃ σ, v = .method σ ∧ ArgumentsFit w.context σ as ∧ u = .temporary σ.result) :
    w.Gives c A (Production.factor E) (Factor.call d as).yield F
      (FactorIs w.context (.call d as)) := by
  rw [Production.factor, Factor.yield]
  refine peek (k := .identifier) (fun rest _ => ?_) ?_
  · rw [List.append_assoc]
    exact d.nextKind_yield _
  change w.Gives c A (designatorFactor E) (d.yield ++ as.yield) _ _
  rw [designatorFactor]
  refine Checks.iff (J := fun u => ∃ v, DesignatorIs w.context d v ∧
    (∀ σ, v = .method σ → σ.result ≠ .void) ∧
      ∃ σ, v = .method σ ∧ ArgumentsFit w.context σ as ∧ u = .temporary σ.result) ?_ fun _ u => ?_
  · refine (Checks.designator hd).bind (fun x v _ => ?_) fun rest _ => ?_
    · refine check (fun rest _ => as.nextKind_yield rest) ?_
      refine ensureHere ((reportIf rfl).iff fun hA _ => ?_) fun _ _ => has fun hA => hA.1.2.2
      have hx := hA.2.2
      cases v with
      | method σ =>
        obtain ⟨id, _, _, hplace, -, -, hτ, -⟩ := hx
        simp [Operand.isVoidMethod, hplace, World.HasType.void_iff (w := w) hτ]
      | «variable» τ =>
        have hvar := hx.1
        unfold Operand.isVariable at hvar
        unfold Operand.isVoidMethod
        split at hvar <;> simp_all
      | _ => simp [Operand.isVoidMethod, hx.1]
    · rw [as.nextKind_yield]
      decide
  · constructor
    · rintro ⟨_, hv, hvoid, σ, rfl, has, rfl⟩
      exact .call hv (hvoid σ rfl) has
    · rintro (_ | ⟨hv, hvoid, has⟩ | _ | _ | _ | _ | _)
      refine ⟨_, hv, ?_, _, rfl, has, rfl⟩
      rintro _ ⟨⟩
      exact hvoid

end Checks

/-! ### Terms and sums -/

/-- A term is read up to some point, by the loop behind its first factor. -/
abbrev TermLeads (w : World) (c : Setting) (E : Production Operand) (t : Term) : Prop :=
  w.Leads c True (Production.factor E)
    (Production.operation Production.multiplying? (Production.factor E)) t.yield (·.EndsFactor)
    (TermIs w.context t) w.Is

/-- A sum is read up to some point, by the loop behind its first term. -/
abbrev SumLeads (w : World) (c : Setting) (E : Production Operand) (e : Expression) : Prop :=
  w.Leads c True (Production.firstTerm E)
    (Production.operation Production.adding? (Production.term E)) e.yield (·.EndsTerm)
    (ExpressionIs w.context e) w.Is

namespace Checks

open Production

variable {c : Setting} {E : Production Operand} {f : Factor} {t : Term} {e : Expression}

theorem term_factor
    (hf : w.Gives c True (Production.factor E) f.yield (·.EndsFactor) (FactorIs w.context f)) :
    w.TermLeads c E (.factor f) :=
  (Leads.first hf).iff fun _ _ => ⟨.factor, fun | .factor h => h⟩

theorem term_product {o : Multiplying} (ht : w.TermLeads c E t)
    (hf : w.Gives c True (Production.factor E) f.yield (·.EndsFactor) (FactorIs w.context f)) :
    w.TermLeads c E (.product t o f) := by
  refine Leads.iff (J := fun u => ∃ v, TermIs w.context t v ∧ v.type? = some .int ∧
      (∃ v', FactorIs w.context f v' ∧ v'.type? = some .int) ∧ u = .temporary .int)
    (ht.extend (fun x v => operation o.multiplying?_kind (fun hA => hA.2.2) hf) fun _ _ =>
      o.endsFactor) fun _ u => ?_
  constructor
  · rintro ⟨v, hv, hint, ⟨v', hv', hint'⟩, rfl⟩
    exact .product hv hint hv' hint'
  · rintro (_ | ⟨hv, hint, hv', hint'⟩)
    exact ⟨_, hv, hint, ⟨_, hv', hint'⟩, rfl⟩

/-- A chain of operators ends where none follows. -/
theorem operation_stops {operator? : Token.Kind → Option Opcode} {s s' : Session}
    {r : Operand ⊕ Operand} (hrun : Runs c (Production.operation operator? E x) s r s')
    (hk : operator? s.current.kind = none) : r = .inr x ∧ s' = s := by
  simp only [Production.operation, runs_bind, runs_peek] at hrun
  obtain ⟨_, _, ⟨rfl, rfl⟩, hrun⟩ := hrun
  rw [hk] at hrun
  exact runs_pure.1 hrun

theorem term (ht : w.TermLeads c E t) :
    w.Gives c True (Production.term E) t.yield (·.EndsTerm) (TermIs w.context t) :=
  ht.last (fun _ _ _ _ hrun hk => operation_stops hrun hk.2) fun _ hk => hk.1

theorem sum_term (ht : w.TermLeads c E t) : w.SumLeads c E (.term t) := by
  refine (Leads.first (P := fun _ => True) ?_).iff
    fun _ _ => (⟨.term, fun | .term h => h⟩ : TermIs w.context t _ ↔ _)
  rw [firstTerm]
  exact check_ne (fun rest _ => t.nextKind_ne rest) (term ht)

theorem sum_negated (ht : w.TermLeads c E t) : w.SumLeads c E (.negated t) := by
  refine Leads.iff (J := fun u => ∃ v, TermIs w.context t v ∧ v.type? = some .int ∧ u = v.negated)
    (Leads.first (P := fun _ => True) ?_) fun _ u => ?_
  · rw [firstTerm, Expression.yield]
    refine check (fun _ _ => rfl) (advance ?_)
    rw [← List.append_nil t.yield]
    exact (term ht).bind (fun x v _ => negate fun hA => hA.2.2) fun _ hrest => hrest
  · constructor
    · rintro ⟨v, hv, hint, rfl⟩
      exact .negated hv hint
    · rintro (_ | ⟨hv, hint⟩ | _)
      exact ⟨_, hv, hint, rfl⟩

theorem sum_sum {o : Adding} (he : w.SumLeads c E e) (ht : w.TermLeads c E t) :
    w.SumLeads c E (.sum e o t) := by
  refine Leads.iff (J := fun u => ∃ v, ExpressionIs w.context e v ∧ v.type? = some .int ∧
      (∃ v', TermIs w.context t v' ∧ v'.type? = some .int) ∧ u = .temporary .int)
    (he.extend (fun x v => operation o.adding?_kind (fun hA => hA.2.2) (term ht)) fun _ _ =>
      o.endsTerm) fun _ u => ?_
  constructor
  · rintro ⟨v, hv, hint, ⟨v', hv', hint'⟩, rfl⟩
    exact .sum hv hint hv' hint'
  · rintro (_ | _ | ⟨hv, hint, hv', hint'⟩)
    exact ⟨_, hv, hint, ⟨_, hv', hint'⟩, rfl⟩

end Checks

open Production

variable (w : World) (c : Setting) {A : Prop} {F : Token.Kind → Prop}

theorem nested (e : Expression) (h : ∀ depth, w.SumLeads c (nestedExpression depth) e) :
    ∀ depth, w.Gives c True (nestedExpression depth) e.yield (·.EndsExpression)
      (ExpressionIs w.context e)
  | 0 => fun _ _ _ _ hrun => absurd hrun runs_throw
  | depth + 1 => (h depth).last (fun _ _ _ _ hrun hk => Checks.operation_stops hrun hk.2)
      fun _ hk => hk.1

mutual

theorem sumLeads (depth : Nat) : ∀ e : Expression, w.SumLeads c (nestedExpression depth) e
  | .term t => Checks.sum_term (termLeads depth t)
  | .negated t => Checks.sum_negated (termLeads depth t)
  | .sum e _ t => Checks.sum_sum (sumLeads depth e) (termLeads depth t)

theorem termLeads (depth : Nat) : ∀ t : Term, w.TermLeads c (nestedExpression depth) t
  | .factor f => Checks.term_factor (givesFactor depth f)
  | .product t _ f => Checks.term_product (termLeads depth t) (givesFactor depth f)

theorem givesFactor (depth : Nat) : ∀ f : Factor, w.Gives c True
    (Production.factor (nestedExpression depth)) f.yield (·.EndsFactor) (FactorIs w.context f)
  | .designator d => Checks.factor_designator (designatorLeads depth d)
  | .call d (.plain es) => Checks.factor_call (designatorLeads depth d)
      (fun hx => Checks.call_plain hx (givesEach depth es 0))
  | .call d (.extended es _ fs) => Checks.factor_call (designatorLeads depth d)
      (fun hx => Checks.call_extended hx (givesEach depth es 0) (givesEach depth fs 0))
  | .number _ => Checks.factor_number
  | .character _ => Checks.factor_character
  | .object _ => Checks.factor_object
  | .array _ e => Checks.factor_array (nested w c e (fun depth => sumLeads depth e) depth)
  | .parentheses e => Checks.factor_parentheses (nested w c e (fun depth => sumLeads depth e) depth)

theorem designatorLeads (depth : Nat) : ∀ d : Designator, w.Leads c True Production.namedOperand
    (designatorStep (nestedExpression depth)) d.yield (fun _ => True) (DesignatorIs w.context d) w.Is
  | .name _ => Leads.first Checks.namedOperand
  | .field d _ => Checks.designator_field (designatorLeads depth d)
  | .element d e => Checks.designator_element (designatorLeads depth d)
      (nested w c e (fun depth => sumLeads depth e) depth)

theorem givesEach (depth : Nat) : ∀ (es : Expressions) (n : Nat), es.Each (fun _ e =>
    w.Gives c True (nestedExpression depth) e.yield (·.EndsExpression) (ExpressionIs w.context e)) n
  | .nil, _ => trivial
  | .cons e es, n => ⟨nested w c e (fun depth => sumLeads depth e) depth, givesEach depth es (n + 1)⟩

end

namespace Checks

variable {w c}

/-- Whatever the bound on nesting is. -/
theorem expression (e : Expression) :
    w.Gives c A Production.expression e.yield (·.EndsExpression) (ExpressionIs w.context e) := by
  intro s x s' rest hrun hn hahead hrest
  simp only [Production.expression, runs_bind, runs_read] at hrun
  obtain ⟨c, s, ⟨rfl, rfl⟩, hrun⟩ := hrun
  exact (nested w c e (fun depth => sumLeads w c depth e) _).anywhere hrun hn hahead hrest

theorem designator_leads : ∀ d : Designator,
    w.Leads c A Production.namedOperand (designatorStep Production.expression) d.yield
      (fun _ => True) (DesignatorIs w.context d) w.Is
  | .name _ => Leads.first namedOperand
  | .field d _ => designator_field (designator_leads d)
  | .element d e => designator_element (designator_leads d) (expression e)

theorem wholeDesignator (d : Designator) :
    w.Gives c A (Production.designator Production.expression) d.yield (·.EndsDesignator)
      (DesignatorIs w.context d) :=
  Checks.designator (designator_leads d)

theorem each_expression : ∀ {es : Expressions} {n : Nat}, es.Each (fun _ e =>
    w.Gives c True Production.expression e.yield (·.EndsExpression) (ExpressionIs w.context e)) n
  | .nil, _ => trivial
  | .cons e _, _ => ⟨expression e, each_expression⟩

theorem wholeCall {as : Arguments} {x : Operand} {v : Value} (hx : A → w.Is x v) :
    w.Gives c A (Production.call Production.expression x) as.yield F fun u =>
      ∃ σ, v = .method σ ∧ ArgumentsFit w.context σ as ∧ u = .temporary σ.result := by
  cases as with
  | plain es => exact call_plain hx each_expression
  | extended es k fs => exact call_extended hx each_expression each_expression

end Checks

end MicroJava.World
