import MicroJava.Proofs.CheckingAction
import MicroJava.Proofs.Lookahead

/-!
# Checking designators

Operators on operands, names, and the steps of designators, where the expressions inside them are checked
by their production (`World.Checks.designator_element`).
-/

namespace MicroJava

open Static Tree

/-- The value may be stored where one of the type is wanted, if a type is given. -/
def Static.Value.Suits (v : Value) : Option Ty → Prop
  | some τ => v.Fits τ
  | none => ∃ σ, v.type? = some σ

/-- The type of an operand, which is that of the result for a method. -/
def Static.Value.carried : Value → Ty
  | .constant τ _ => τ
  | .variable τ => τ
  | .temporary τ => τ
  | .method σ => σ.result

theorem Static.Value.carried_eq {v : Value} {τ : Ty} (h : v.type? = some τ) : v.carried = τ := by
  cases v <;> simp_all [Value.type?, Value.carried]

theorem Static.Value.type?_eq_some_iff {v : Value} {τ : Ty} :
    v.type? = some τ ↔ v.carried = τ ∧ ∃ σ, v.type? = some σ := by
  cases v <;> simp [Value.type?, Value.carried]

theorem Static.Value.Fits.exists_type {v : Value} {τ : Ty} (h : v.Fits τ) :
    ∃ σ, v.type? = some σ := by
  cases h with
  | assign hσ => exact ⟨_, hσ⟩
  | int => exact ⟨_, rfl⟩
  | char => exact ⟨_, rfl⟩

namespace SymbolTable

variable {ρ : Classes} {t : SymbolTable}

theorem Denotes.hasType {x : Operand} {v : Value} (h : t.Denotes ρ x v) :
    t.types.HasType ρ v.carried x.type := by
  cases v with
  | method σ =>
    obtain ⟨_, _, _, -, -, -, hτ, -⟩ := h
    exact hτ
  | _ => exact h.2

/-- An entry gives the operand of what its name stands for, if that has a value. -/
theorem Means.ofEntry {id : EntryId} {e : Entry} {x : Denotation} (hid : id ≠ .none)
    (he : t.entryAt? id = some e) (h : t.Means ρ e x) :
    match Operand.ofEntry id e with
    | .ok y => ∃ v, x.value? = some v ∧ t.Denotes ρ y v
    | .error _ => x.value? = none := by
  rw [Operand.ofEntry, if_neg hid]
  cases x with
  | type τ =>
    rw [h.1]
    rfl
  | constant τ v =>
    rw [h.1]
    exact ⟨_, rfl, rfl, h.2⟩
  | «variable» τ =>
    obtain ⟨⟨slot, level, hmeaning⟩, hτ⟩ := h
    rw [hmeaning]
    refine ⟨_, rfl, ?_, hτ⟩
    by_cases hlevel : level = SymbolTable.programLevel <;> simp [Operand.isVariable, hlevel]
  | method σ =>
    obtain ⟨m, hmeaning, hresult, hσ⟩ := h
    rw [hmeaning]
    exact ⟨_, rfl, id, e, m, rfl, he, hmeaning, hresult, hσ⟩
  | program =>
    obtain ⟨members, hmeaning⟩ := h
    rw [hmeaning]
    rfl

end SymbolTable

namespace World

variable {w : World} {σ τ : Ty} {t u : TypeId}

theorem HasType.int_iff (h : w.HasType τ t) : t = .int ↔ τ = .int := by
  rw [eq_comm, Types.HasType.eq_iff w.models (σ := .int) rfl h (by simp), eq_comm]

theorem HasType.char_iff (h : w.HasType τ t) : t = .char ↔ τ = .char := by
  rw [eq_comm, Types.HasType.eq_iff w.models (σ := .char) rfl h (by simp), eq_comm]

theorem HasType.void_iff (h : w.HasType τ t) : t = .none ↔ τ = .void := by
  rw [eq_comm, Types.HasType.eq_iff w.models (σ := .void) rfl h (by simp), eq_comm]

theorem Is.type {x : Operand} {v : Value} (h : w.Is x v) (hv : v.type? = some τ) :
    w.HasType τ x.type :=
  SymbolTable.Denotes.type h hv

theorem Is.hasType {x : Operand} {v : Value} (h : w.Is x v) : w.HasType v.carried x.type :=
  SymbolTable.Denotes.hasType h

namespace Checks

open Production

variable {c : Setting} {A : Prop} {F : Token.Kind → Prop} {v : Value} {x y : Operand}
  {J : Value → Prop} {E : Production Operand} {xs : List Terminal} {k : Token.Kind} {op : Opcode}

/-! ### Operators -/

/-- The operands of an operator are numbers. -/
theorem intOperands (hx : A → w.HasType σ x.type) (hy : A → w.HasType τ y.type) :
    w.Ensures c A (Production.reportIf (x.type ≠ .int ∨ y.type ≠ .int) .operandNotInt) [] F
      (σ = .int ∧ τ = .int) :=
  (reportIf rfl).iff fun hA _ => by
    rw [not_or, not_not, not_not, (hx hA).int_iff, (hy hA).int_iff]

/-- One more operator and operand behind an operand. -/
theorem operation {operator? : Token.Kind → Option Opcode} (hop : operator? k = some op)
    (hx : A → w.Is x v) (hE : w.Gives c True E xs F J) :
    w.Checks A (Runs c (Production.operation operator? E x)) (.word k :: xs) F (fun r => r.isLeft)
      (fun u => v.type? = some .int ∧ (∃ v', J v' ∧ v'.type? = some .int) ∧ u = .temporary .int)
      fun r u => ∃ y, r = .inl y ∧ w.Is y u := by
  rw [Production.operation]
  refine peek (k := k) (fun _ _ => rfl) ?_
  rw [hop]
  refine advance ?_
  refine Checks.iff (J := fun u => ∃ σ, v.type? = some σ ∧ ∃ v', J v' ∧ ∃ τ, v'.type? = some τ ∧
    ∃ _ : Unit, (σ = .int ∧ τ = .int) ∧ u = Value.temporary .int) ?_ ?_
  · refine (load hx).act fun _ σ _ => ?_
    rw [← List.append_nil xs]
    refine hE.anywhere.bind (fun y v' _ => ?_) fun _ hF => by simpa using hF
    refine (load fun hA => hA.2.2).act fun _ τ _ => ?_
    refine (intOperands (fun hA => hA.1.1.2.2) fun hA => hA.2.2).act fun _ _ _ => ?_
    exact emit (ret rfl (fun _ => ⟨_, rfl⟩) fun _ u hu => ⟨_, rfl, hu ▸ ⟨rfl, rfl⟩⟩)
  · intro _ u
    constructor
    · rintro ⟨_, hv, v', hv', _, hτ, -, ⟨rfl, rfl⟩, rfl⟩
      exact ⟨hv, ⟨v', hv', hτ⟩, rfl⟩
    · rintro ⟨hv, ⟨v', hv', hτ⟩, rfl⟩
      exact ⟨_, hv, v', hv', _, hτ, (), ⟨rfl, rfl⟩, rfl⟩

/-- A constant is negated at once, and any other number on the stack. -/
theorem negate (hx : A → w.Is x v) :
    w.Checks A (Runs c (Production.negate x)) [] F (fun _ => True)
      (fun u => v.type? = some .int ∧ u = v.negated) w.Is := by
  rw [Production.negate]
  have hint : w.HasType .int .int := rfl
  refine ite (fun hne => reported rfl trivial fun hA u hu => ?_) fun heq => ?_
  · exact hne (((hx hA).type hu.1).int_iff.2 rfl)
  rw [not_not] at heq
  have hcarried : A → v.carried = .int := fun hA => (hx hA).hasType.int_iff.1 heq
  split
  · next k hk =>
    have hv : A → v = .constant .int k := fun hA => by
      have hconstant := (hx hA).constant?_eq
      have hc := hcarried hA
      rw [hk] at hconstant
      cases v with
      | constant τ k' => simp_all [Value.carried]
      | _ => simp at hconstant
    exact ret trivial (fun hA => ⟨_, by rw [hv hA]; rfl, rfl⟩) fun hA u hu => by
      rw [hu.2, hv hA]
      exact ⟨rfl, hint⟩
  · next hk =>
    refine Checks.iff (J := fun u => ∃ τ, v.type? = some τ ∧ u = v.negated) ?_ ?_
    · refine (load hx).act fun _ τ _ => emit (ret trivial (fun _ => ⟨_, rfl⟩) fun hA u hu => ?_)
      have hconstant := (hx hA.1).constant?_eq
      rw [hk] at hconstant
      have hneg : v.negated = .temporary .int := by
        cases v with
        | constant τ k' => simp at hconstant
        | _ => rfl
      rw [hu, hneg]
      exact ⟨rfl, by rw [Operand.loaded, Operand.onStack, heq]; exact hint⟩
    · intro hA u
      rw [Value.type?_eq_some_iff, exists_and_right]
      simp [hcarried hA]

/-! ### Names and designators -/

theorem namedType {n : String} :
    w.Checks A (Runs c Production.namedType) [.name n] F (fun _ => True)
      (fun τ => w.context.lookup n = some (.type τ)) fun t τ => w.Names n τ t := by
  rw [Production.namedType]
  refine identifier fun hn => ?_
  refine Checks.iff (J := fun τ => ∃ x, w.context.lookup n = some x ∧ x = .type τ) ?_
    fun _ τ => by simp
  refine (find hn).act fun id x _ => entry fun e => ?_
  -- what is known of the entry
  have hmeans : (A ∧ w.context.lookup n = some x ∧
      w.table.lookup? n = some id ∧ w.table.Binds w.classes id n x) ∧
      w.table.entryAt? id = some e → id ≠ .none ∧ w.table.Means w.classes e x := by
    rintro ⟨⟨-, -, -, hne, e', he', -, h⟩, he⟩
    obtain rfl := Option.some.inj (he.symm.trans he')
    exact ⟨hne, h⟩
  refine ite (fun htype => ?_) fun htype => ?_
  · have hx : (A ∧ w.context.lookup n = some x ∧
        w.table.lookup? n = some id ∧ w.table.Binds w.classes id n x) ∧
        w.table.entryAt? id = some e → ∃ τ, x = .type τ ∧ w.HasType τ e.type := by
      intro hA
      have h := (hmeans hA).2
      cases x with
      | type τ => exact ⟨τ, rfl, h.2⟩
      | method σ =>
        obtain ⟨m, hmeaning, -⟩ := h
        simp [Entry.isType, hmeaning] at htype
      | «variable» τ =>
        obtain ⟨⟨slot, level, hmeaning⟩, -⟩ := h
        simp [Entry.isType, hmeaning] at htype
      | constant τ v => simp [Entry.isType, h.1] at htype
      | program =>
        obtain ⟨members, hmeaning⟩ := h
        simp [Entry.isType, hmeaning] at htype
    refine ret trivial (fun hA => ?_) fun hA τ hτ => ?_
    · obtain ⟨τ, hτ, -⟩ := hx hA
      exact ⟨τ, hτ⟩
    · obtain ⟨τ', rfl, hτ'⟩ := hx hA
      obtain rfl := Denotation.type.inj hτ
      exact ⟨hA.1.2.1, ⟨id, e, hA.1.2.2.1, hA.2, rfl⟩, hτ'⟩
  · refine Checks.iff (J := fun τ => ∃ _ : Unit, ¬(id ≠ .none) ∧ x = .type τ)
      ((reportIf rfl).act fun _ _ _ => ret trivial (fun hA => ?_) fun hA => ?_) fun hA τ => ?_
    · exact absurd (hmeans hA.1).1 hA.2.1
    · exact absurd (hmeans hA.1).1 hA.2.1
    · refine ⟨fun ⟨_, hid, _⟩ => absurd (hmeans hA).1 hid, ?_⟩
      rintro rfl
      have h := (hmeans hA).2
      simp [Entry.isType, h.1] at htype

theorem namedOperand {n : String} :
    w.Gives c A Production.namedOperand [.name n] F (DesignatorIs w.context (.name n)) := by
  rw [Production.namedOperand]
  refine identifier fun hn => ?_
  refine Checks.iff (J := fun v => ∃ x, w.context.lookup n = some x ∧ x.value? = some v) ?_ ?_
  · refine (find hn).act fun id x _ => entry fun e => ?_
    have hvalue : (A ∧ w.context.lookup n = some x ∧
        w.table.lookup? n = some id ∧ w.table.Binds w.classes id n x) ∧
        w.table.entryAt? id = some e → match Operand.ofEntry id e with
          | .ok y => ∃ v, x.value? = some v ∧ w.Is y v
          | .error _ => x.value? = none := by
      rintro ⟨⟨-, -, -, hne, e', he', -, h⟩, he⟩
      obtain rfl := Option.some.inj (he.symm.trans he')
      exact h.ofEntry hne he
    split
    · next y hy =>
      rw [hy] at hvalue
      refine ret trivial (fun hA => ?_) fun hA v hv => ?_
      · obtain ⟨v, hv, -⟩ := hvalue hA
        exact ⟨v, hv⟩
      · obtain ⟨v', hv', hx⟩ := hvalue hA
        obtain rfl := Option.some.inj (hv.symm.trans hv')
        exact hx
    · next p hp =>
      rw [hp] at hvalue
      exact reported (not_syntactic_ofEntry hp) trivial fun hA v hv => by simp [hvalue hA] at hv
  · intro _ v
    constructor
    · rintro ⟨x, hx, hv⟩
      exact .name hx hv
    · rintro (⟨hx, hv⟩ | _ | _)
      exact ⟨_, hx, hv⟩

/-- The operand is an object of this class, with these fields. -/
theorem fieldOf {n : String} (hx : A → w.Is x v) :
    w.Checks A (Runs c (Production.fieldOf x)) [.name n] F (fun _ => True)
      (fun u => ∃ k fields τ, v.type? = some (.object k) ∧
        w.context.classes.lookup k = some fields ∧ fields.lookup n = some (.variable τ) ∧
        u = .variable τ) w.Is := by
  rw [Production.fieldOf]
  refine descriptor fun d => ?_
  split
  · refine Checks.iff (J := fun u => ∃ σ, v.type? = some σ ∧ ∃ τ,
      (∃ k fields, σ = .object k ∧ w.context.classes.lookup k = some fields ∧
        fields.lookup n = some (.variable τ)) ∧ u = .variable τ) ?_ ?_
    · refine (load fun hA => hx hA.1).act fun _ σ _ => identifier fun hn => ?_
      refine (findField fun hA => hA.2.2).act fun id τ _ => ?_
      refine ite (fun hid => ?_) fun hid => entry fun e => ?_
      · exact ret trivial (fun _ => ⟨_, rfl⟩) fun hA _ _ => absurd hid hA.2.2.1
      · refine ret trivial (fun _ => ⟨_, rfl⟩) fun hA u hu => ?_
        obtain ⟨-, e', he, -, -, hτ⟩ := hA.1.2.2
        obtain rfl := Option.some.inj (he.symm.trans hA.2)
        exact hu ▸ ⟨rfl, hτ⟩
    · intro _ u
      constructor
      · rintro ⟨_, hv, τ, ⟨k, fields, rfl, hk, hn⟩, hu⟩
        exact ⟨k, fields, τ, hv, hk, hn, hu⟩
      · rintro ⟨k, fields, τ, hv, hk, hn, hu⟩
        exact ⟨_, hv, τ, ⟨k, fields, rfl, hk, hn⟩, hu⟩
  · next hd =>
    refine report_then rfl (fun hA u => ?_) (ignore (ret trivial False.elim False.elim))
    rintro ⟨k, fields, τ, hv, -⟩
    obtain ⟨d', hd', ids, rfl⟩ := ((hx hA.1).type hv).describes w.models
    obtain rfl := Option.some.inj (hd'.symm.trans hA.2)
    exact absurd rfl hd

/-- An index or a size is a number. -/
theorem loadInteger {mistake : Problem} (hE : w.Gives c True E xs F J)
    (hmistake : mistake.isSyntactic = false) :
    w.Ensures c A (Production.loadInteger E mistake) xs F (∃ v, J v ∧ v.type? = some .int) := by
  rw [Production.loadInteger]
  refine Checks.post (J := fun _ : Ty => ∃ v, J v ∧ ∃ _ : Unit, v.carried = .int ∧
    ∃ τ, v.type? = some τ) (D := fun _ _ => True) ?_ ?_ ?_
  · rw [← List.append_nil xs]
    refine hE.anywhere.bind (fun y v _ => ?_) fun _ hF => by simpa using hF
    refine Checks.act (I := fun _ : Unit => v.carried = .int) ((reportIf hmistake).iff fun hA _ => ?_)
      fun _ _ _ => ?_
    · rw [not_not]
      exact hA.2.2.hasType.int_iff
    · exact (load fun hA => hA.1.2.2).post (fun _ τ hτ => ⟨τ, ⟨τ, hτ⟩⟩)
        fun _ _ ⟨τ, hτ⟩ => ⟨τ, hτ, fun _ _ => trivial⟩
  · rintro - τ ⟨v, hv, -, hcarried, hτ⟩
    exact ⟨(), v, hv, Value.type?_eq_some_iff.2 ⟨hcarried, hτ⟩⟩
  · rintro - - ⟨v, hv, hint⟩
    exact ⟨.int, ⟨v, hv, (), (Value.type?_eq_some_iff.1 hint).1, _, hint⟩, fun _ => id⟩

theorem loadArray {d : Descriptor} (hx : A → w.Is x v)
    (hd : A → w.table.types.descriptor? x.type = some d) :
    w.Checks A (Runs c (Production.loadArray d x)) [] F (fun _ => True)
      (fun τ => v.type? = some (.array τ))
      fun _ τ => ∃ e, d = .array e ∧ w.HasType τ e := by
  rw [Production.loadArray]
  refine ite (fun harray => (load hx).post (fun hA σ hσ => ?_) fun hA τ hτ => ?_)
    fun harray => (report (V := Unit) (G := fun _ _ => True) rfl).post
      (fun _ _ => False.elim) fun hA τ hτ => ?_
  · obtain ⟨d', hd', hdσ⟩ := ((hx hA).type hσ).describes w.models
    obtain rfl := Option.some.inj ((hd hA).symm.trans hd')
    cases σ with
    | array τ => exact ⟨τ, hσ⟩
    | object k =>
      obtain ⟨ids, rfl⟩ := hdσ
      simp [Descriptor.isArray] at harray
    | _ =>
      subst hdσ
      simp [Descriptor.isArray] at harray
  · obtain ⟨e, he, -, hτ'⟩ := (hx hA).type hτ
    obtain rfl := Option.some.inj ((hd hA).symm.trans he)
    exact ⟨_, hτ, fun _ _ => ⟨e, rfl, hτ'⟩⟩
  · obtain ⟨e, he, -, hτ'⟩ := (hx hA).type hτ
    obtain rfl := Option.some.inj ((hd hA).symm.trans he)
    exact absurd rfl harray

/-- The operand is an array, and the index a number. -/
theorem elementOf (hx : A → w.Is x v) (hE : w.Gives c True E xs (·.EndsExpression) J) :
    w.Checks A (Runs c (Production.elementOf E x)) (xs ++ [.word .rightBracket]) F (fun _ => True)
      (fun u => ∃ τ, v.type? = some (.array τ) ∧ (∃ v', J v' ∧ v'.type? = some .int) ∧
        u = .variable τ) w.Is := by
  rw [Production.elementOf]
  refine descriptor fun d => ?_
  refine Checks.iff (J := fun u => ∃ τ, v.type? = some (.array τ) ∧
    ∃ _ : Unit, (∃ v', J v' ∧ v'.type? = some .int) ∧ u = Value.variable τ) ?_ fun _ u => by simp
  refine (loadArray (fun hA => hx hA.1) fun hA => hA.2).act fun _ τ _ => ?_
  refine (loadInteger hE rfl).bind (fun _ _ _ => expect ?_) fun _ _ =>
    (by decide : Token.Kind.rightBracket.EndsExpression)
  refine ret trivial (fun _ => ⟨_, rfl⟩) fun hA u hu => ?_
  obtain ⟨e, rfl, hτ⟩ := hA.1.2.2
  exact hu ▸ ⟨rfl, hτ⟩

theorem designator_field {d : Designator} {n : String}
    (hd : w.Leads c A Production.namedOperand (designatorStep E) d.yield (fun _ => True)
      (DesignatorIs w.context d) w.Is) :
    w.Leads c A Production.namedOperand (designatorStep E) (Designator.field d n).yield
      (fun _ => True) (DesignatorIs w.context (.field d n)) w.Is := by
  rw [Designator.yield]
  refine Leads.iff (J := fun u => ∃ v, DesignatorIs w.context d v ∧ ∃ k fields τ,
    v.type? = some (.object k) ∧ w.context.classes.lookup k = some fields ∧
      fields.lookup n = some (.variable τ) ∧ u = .variable τ) ?_ fun _ u => ?_
  · refine hd.extend (fun x v => ?_) fun _ _ => trivial
    rw [designatorStep]
    refine peek (k := .dot) (fun _ _ => rfl) (advance ?_)
    exact (fieldOf fun hA => hA.2.2).map (fun _ _ => rfl) fun y _ hy => ⟨y, rfl, hy⟩
  · constructor
    · rintro ⟨v, hv, k, fields, τ, hvk, hk, hn, rfl⟩
      exact .field hv hvk hk hn
    · rintro (_ | ⟨hv, hvk, hk, hn⟩ | _)
      exact ⟨_, hv, _, _, _, hvk, hk, hn, rfl⟩

theorem designator_element {d : Designator} {e : Expression}
    (hd : w.Leads c A Production.namedOperand (designatorStep E) d.yield (fun _ => True)
      (DesignatorIs w.context d) w.Is)
    (hE : w.Gives c True E e.yield (·.EndsExpression) (ExpressionIs w.context e)) :
    w.Leads c A Production.namedOperand (designatorStep E) (Designator.element d e).yield
      (fun _ => True) (DesignatorIs w.context (.element d e)) w.Is := by
  rw [Designator.yield]
  refine Leads.iff (J := fun u => ∃ v, DesignatorIs w.context d v ∧ ∃ τ,
    v.type? = some (.array τ) ∧
      (∃ v', ExpressionIs w.context e v' ∧ v'.type? = some .int) ∧ u = .variable τ) ?_ fun _ u => ?_
  · refine hd.extend (fun x v => ?_) fun _ _ => trivial
    rw [designatorStep]
    refine peek (k := .leftBracket) (fun _ _ => rfl) (advance ?_)
    exact (elementOf (fun hA => hA.2.2) hE).map (fun _ _ => rfl) fun y _ hy => ⟨y, rfl, hy⟩
  · constructor
    · rintro ⟨v, hv, τ, hvτ, ⟨v', hv', hint⟩, rfl⟩
      exact .element hv hvτ hv' hint
    · rintro (_ | _ | ⟨hv, hvτ, hv', hint⟩)
      exact ⟨_, hv, _, hvτ, ⟨_, hv', hint⟩, rfl⟩

theorem designator {d : Designator}
    (hd : w.Leads c A Production.namedOperand (designatorStep E) d.yield (fun _ => True)
      (DesignatorIs w.context d) w.Is) :
    w.Gives c A (Production.designator E) d.yield (·.EndsDesignator) (DesignatorIs w.context d) := by
  rw [Production.designator]
  refine hd.last (fun s x r s' hrun hk => ?_) fun _ _ => trivial
  simp only [designatorStep, runs_bind, runs_peek] at hrun
  obtain ⟨_, _, ⟨rfl, rfl⟩, hrun⟩ := hrun
  split at hrun
  · next h => exact absurd h hk.1
  · next h => exact absurd h hk.2
  · exact runs_pure.1 hrun

end Checks

end World

end MicroJava
