import MicroJava.Proofs.Computing
import MicroJava.Proofs.Segment

/-!
# Expressions push their values

The code that is appended for an expression without calls and creations, with the code that loads its
operand, pushes the value of the expression, whatever is on the stack below (`expression_computes`). There
is one lemma for each form of the grammar, and the induction over the tree puts them together.

The left operand of an operator is loaded before there is code for the right one. So is all of a
designator but its last step before there is code for an index in it.
-/

namespace MicroJava

open Production Tree

/-! ### Where trees end -/

/-- A token of this kind does not continue the factor. -/
def Tree.Factor.Ends (k : Token.Kind) : Factor → Prop
  | .designator _ => k.EndsFactor
  | _ => True

def Tree.Term.Ends (k : Token.Kind) : Term → Prop
  | .factor f => f.Ends k
  | .product _ _ f => f.Ends k

/-- The term at the end of an expression. -/
def Tree.Expression.last : Expression → Term
  | .term x => x
  | .negated x => x
  | .sum _ _ x => x

def Tree.Expression.Ends (k : Token.Kind) (e : Expression) : Prop :=
  e.last.Ends k ∧ multiplying? k = none ∧ adding? k = none

theorem Tree.Factor.ends {k : Token.Kind} (h : k.EndsFactor) (f : Factor) : f.Ends k := by
  cases f with
  | designator => exact h
  | _ => trivial

theorem Tree.Term.ends {k : Token.Kind} (h : k.EndsFactor) (x : Term) : x.Ends k := by
  cases x with
  | factor f => exact f.ends h
  | product _ _ f => exact f.ends h

theorem Tree.Expression.ends {k : Token.Kind} (h : k.EndsExpression) (e : Expression) : e.Ends k :=
  ⟨e.last.ends h.1.1, h.1.2, h.2⟩

/-! ### Operands -/

namespace Operand.Gives

variable {x y : Operand} {slots slots' : List Nat} {f g : Memory → Computation Int32}
  {os os₁ os₂ os₃ : List Order}

theorem loaded (h : x.Gives slots f os) (hx : x.loading? = some os₁) : Computes slots f (os ++ os₁) := by
  obtain ⟨os₁', hx', hcomputes⟩ := h.computes
  obtain rfl := Option.some.inj (hx.symm.trans hx')
  exact hcomputes

/-- The instruction of an operator behind its loaded operands. -/
theorem operator {op : Opcode} {b : Memory → Int32 → Int32 → Computation Int32}
    (h : x.Gives slots f os) (hx : x.loading? = some os₁) (h' : y.Gives slots' g os₂)
    (hy : y.loading? = some os₃) (hstep : ∀ m : Machine, m.step op [] = m.binary (b m.memory))
    (hfields : op.fields = []) (hrelative : op.isRelative = false) :
    Computes (slots ++ slots') (fun m => do b m (← f m) (← g m))
      (os ++ (os₁ ++ (os₂ ++ (os₃ ++ [(op, [])])))) := by
  have hboth := (h.loaded hx).binary (h'.loaded hy) hstep hfields hrelative
  simpa only [List.append_assoc] using hboth

/-- The field of an object that is loaded. -/
theorem field (h : x.Gives slots f os) (hx : x.loading? = some os₁) (slot : Nat) (type : TypeId) :
    Gives ⟨.field slot, type⟩ (slots ++ [slot]) (fun m => do m.field (← f m) slot) (os ++ os₁) where
  computes := ⟨_, rfl, (h.loaded hx).field slot⟩
  is_constant := by simp [Operand.constant?]

/-- The element of an array that is loaded, with the index behind it. -/
theorem element (h : x.Gives slots f os) (hx : x.loading? = some os₁) (h' : y.Gives slots' g os₂)
    (hy : y.loading? = some os₃) (type : TypeId) :
    Gives ⟨.element, type⟩ (slots ++ slots') (fun m => do m.element type (← f m) (← g m))
      (os ++ (os₁ ++ (os₂ ++ os₃))) where
  computes := by
    refine ⟨_, rfl, ?_⟩
    have hstep (m : Machine) :
        m.step (Emission.elementLoad type) [] = m.binary (m.memory.element type) := by
      unfold Emission.elementLoad Memory.element
      split <;> rfl
    have hboth := h.operator hx h' hy (b := fun m => m.element type) hstep ?_ ?_
    · simpa only [List.append_assoc] using hboth
    all_goals
      unfold Emission.elementLoad
      split <;> rfl
  is_constant := by simp [Operand.constant?]

/-- A constant is negated at once. -/
theorem negated_constant {v : Int32} (h : x.Gives slots f os) (hx : x.constant? = some v) :
    (Operand.constant (-v) .int).Gives slots (fun m => do return -(← f m)) os := by
  obtain ⟨rfl, rfl⟩ := h.is_constant v hx
  exact .constant (-v) .int slots

theorem negated (h : x.Gives slots f os) (hx : x.loading? = some os₁) :
    x.loaded.Gives slots (fun m => do return -(← f m)) (os ++ (os₁ ++ [(.neg, [])])) := by
  rw [← List.append_assoc]
  exact .onStack (h.loaded hx).negated _

end Operand.Gives

/-! ### The productions of expressions -/

namespace Codes

variable {t : SymbolTable} {c : Setting} {E : Production Operand} {F H : Token.Kind → Prop}
  {xs : List Terminal} {S : Operand → List Order → Prop} {x : Operand} {k : Token.Kind} {op : Opcode}

theorem map {α β : Type} {m : Production α} {g : α → β} {T : α → List Order → Prop}
    (h : Codes t c m xs F T) :
    Codes t c (do return g (← m)) xs F fun b os => ∃ a, b = g a ∧ T a os := by
  rw [← List.append_nil xs]
  refine (bind (H := F) h (fun a => ret) fun _ => id).post ?_
  rintro b _ ⟨a, os, _, rfl, hT, rfl, rfl⟩
  exact ⟨a, rfl, by simpa using hT⟩

/-- One more operator and operand behind an operand. -/
theorem operation {operator? : Token.Kind → Option Opcode} (hop : operator? k = some op)
    (hE : Codes t c E xs F S) :
    Codes t c (Production.operation operator? E x) (.word k :: xs) F fun r os => ∃ y, r = .inl y ∧
      ∃ z os₁ os₂ os₃, os = os₁ ++ (os₂ ++ (os₃ ++ [(op, [])])) ∧ x.loading? = some os₁ ∧ S z os₂ ∧
        z.loading? = some os₃ ∧ y = .onStack .int := by
  rw [Production.operation]
  refine peek (k := k) (fun _ _ => rfl) ?_
  rw [hop]
  refine advance ?_
  rw [← List.append_nil xs]
  refine (act load fun _ => bind hE (fun z => act load fun _ => reportIf rfl (act emit fun _ => ret))
    fun _ hF => by simpa using hF).post ?_
  rintro r _ ⟨_, os₁, _, rfl, hx, z, os₂, _, rfl, hz, _, os₃, _, rfl, hload, _, _, _, rfl, rfl, rfl, rfl⟩
  exact ⟨_, rfl, z, os₁, os₂, os₃, by simp, hx, hz, hload, rfl⟩

theorem operation_goes {operator? : Token.Kind → Option Opcode} (hop : operator? k = some op)
    {s s' : Session} {r : Operand ⊕ Operand}
    (hrun : Runs c (Production.operation operator? E x) s r s') (hk : s.current.kind = k) :
    r.isLeft := by
  simp only [Production.operation, runs_bind, runs_peek] at hrun
  obtain ⟨_, _, ⟨rfl, rfl⟩, hrun⟩ := hrun
  simp only [hk, hop, runs_bind, runs_pure] at hrun
  obtain ⟨_, _, -, _, _, -, _, _, -, _, _, -, _, _, -, _, _, -, rfl, -⟩ := hrun
  rfl

/-- A constant is negated at once, and any other number on the stack. -/
theorem negate : Codes t c (Production.negate x) [] F fun y os' => ∀ slots f os,
    x.Gives slots f os → y.Gives slots (fun m => do return -(← f m)) (os ++ os') := by
  rw [Production.negate]
  refine ite (fun _ => report_then rfl ret) fun _ => ?_
  split
  · next v hv =>
    refine post ?_ ret
    rintro y _ ⟨rfl, rfl⟩ slots f os hx
    simpa using hx.negated_constant hv
  · refine post ?_ (act load fun _ => act emit fun _ => ret)
    rintro y _ ⟨_, os₁, _, rfl, hload, _, _, _, rfl, rfl, rfl, rfl⟩ slots f os hx
    simpa using hx.negated hload

/-! #### Designators -/

/-- The operand is that of the designator. -/
def Designates (t : SymbolTable) (d : Designator) (x : Operand) (os : List Order) : Prop :=
  x.Gives (d.slots t) (fun m => d.value t m) os ∧ x.type = d.type t

theorem namedOperand (hs : t.Sound) {n : String} (hn : (Designator.name n).IsPlain t) :
    Codes t c Production.namedOperand [.name n] F (Designates t (.name n)) := by
  rw [Production.namedOperand]
  refine identifier fun hname => post ?_ (find hname fun id => entry
    (T := fun e x os => Operand.ofEntry id e = .ok x ∧ os = []) fun e => ?_)
  · rintro x _ ⟨id, hid, e, he, hx, rfl⟩
    have hnamed : t.named? n = some e := by simp [SymbolTable.named?, hid, he]
    simp only [Designator.IsPlain, hnamed, Option.elim_some] at hn
    have hgives := Operand.Gives.of_entry (hs.lookup? hid) hn hx
    simpa [Designates, Designator.slots, Designator.value, Designator.type, hnamed] using hgives
  · split
    · next y hy =>
      refine post ?_ ret
      rintro _ _ ⟨rfl, rfl⟩
      exact ⟨hy, rfl⟩
    · next p hp => exact report_then (not_syntactic_ofEntry hp) ret

theorem ignore {α : Type} {n : String} {g : Unit → Production α} {T : α → List Order → Prop}
    (hg : Codes t c (g ()) xs F T) :
    Codes t c (discard Production.identifier >>= g) (.name n :: xs) F T := by
  refine take (fun s u s' hrun hx => ?_) hg
  obtain ⟨a, hrun⟩ := runs_discard.1 hrun
  exact ⟨rfl, (World.Checks.runs_identifier_terminal s a s' hrun hx).2⟩

/-- The operand is that of the field of a loaded object. -/
def IsField (t : SymbolTable) (type : TypeId) (n : String) (y : Operand) : Prop :=
  ∃ e, t.field? type n = some e ∧ y = ⟨.field e.address, e.type⟩

theorem fieldNamed (hs : t.Sound) {type : TypeId} {n : String} :
    Codes t c (do
      let name ← Production.identifier
      let id ← Production.findField name type
      if id = .none then return .missing
      let e ← Production.entry id
      return (⟨.field e.address, e.type⟩ : Operand)) [.name n] F
      fun y os => os = [] ∧ IsField t type n y := by
  refine identifier fun _ => post ?_ (findField (T := fun id (y : Operand) os => id = .none ∨
    os = [] ∧ ∃ e, t.entryAt? id = some e ∧ y = ⟨.field e.address, e.type⟩)
      fun id => ite (fun hid => ?_) fun _ => ?_)
  · rintro y os ⟨id, hid, hnone | ⟨hos, e, he, hy⟩⟩
    · -- the fields of a class have entries of their own
      unfold SymbolTable.findField at hid
      split at hid
      · next id' hfind =>
        obtain rfl := Except.ok.inj hid
        exact absurd hnone (hs.fields _ _ (List.mem_of_find?_eq_some hfind))
      · contradiction
    · exact ⟨hos, e, by simp [SymbolTable.field?, hid, Except.toOption, he], hy⟩
  · exact post (fun _ _ _ => .inl hid) ret
  · refine post ?_ (entry fun e => ret)
    rintro y os ⟨e, he, hy, hos⟩
    exact .inr ⟨hos, e, he, hy⟩

theorem fieldOf (hs : t.Sound) {n : String} :
    Codes t c (Production.fieldOf x) [.name n] F fun y os =>
      x.loading? = some os ∧ IsField t x.type n y := by
  rw [Production.fieldOf]
  refine post ?_ (descriptor (T := fun _ y os => x.loading? = some os ∧ IsField t x.type n y) fun d =>
    ite (fun _ => post ?_ (act load fun _ => fieldNamed hs)) fun _ => report_then rfl (ignore ret))
  · rintro y os ⟨_, _, h⟩
    exact h
  · rintro y _ ⟨_, os₁, _, rfl, hx, rfl, hy⟩
    exact ⟨by simpa using hx, hy⟩

theorem loadArray {d : Descriptor} :
    Codes t c (Production.loadArray d x) [] F fun _ os => x.loading? = some os ∧ d.isArray := by
  rw [Production.loadArray]
  exact ite (fun harray => post (fun _ os hx => ⟨hx, harray⟩) load) fun _ => report rfl

theorem loadInteger {mistake : Problem} (hmistake : mistake.isSyntactic = false)
    (hE : Codes t c E xs F S) :
    Codes t c (Production.loadInteger E mistake) xs F fun _ os =>
      ∃ z os₁ os₂, os = os₁ ++ os₂ ∧ S z os₁ ∧ z.loading? = some os₂ := by
  rw [Production.loadInteger, ← List.append_nil xs]
  exact bind hE (fun z => reportIf hmistake load) fun _ hF => by simpa using hF

theorem elementOf (hE : Codes t c E xs H S) (hH : H .rightBracket) :
    Codes t c (Production.elementOf E x) (xs ++ [.word .rightBracket]) F fun y os =>
      ∃ z os₁ os₂ os₃, os = os₁ ++ (os₂ ++ os₃) ∧ x.loading? = some os₁ ∧ S z os₂ ∧
        z.loading? = some os₃ ∧ y = ⟨.element, t.types.element x.type⟩ := by
  rw [Production.elementOf]
  refine post ?_ (descriptor fun d => act loadArray fun _ =>
    bind (loadInteger rfl hE) (fun _ => expect ret) fun _ _ => hH)
  rintro y _ ⟨d, hd, _, os₁, _, rfl, ⟨hx, harray⟩, _, _, _, rfl, ⟨z, os₂, os₃, rfl, hz, hload⟩, rfl, rfl⟩
  refine ⟨z, os₁, os₂, os₃, by simp, hx, hz, hload, ?_⟩
  rw [if_pos harray, Types.element, hd]
  rfl

/-- A step of a designator goes on. -/
theorem designatorStep_goes (hk : k = .dot ∨ k = .leftBracket) {s s' : Session} {r : Operand ⊕ Operand}
    (hrun : Runs c (designatorStep E x) s r s') (hs : s.current.kind = k) : r.isLeft := by
  simp only [designatorStep, runs_bind, runs_peek] at hrun
  obtain ⟨_, _, ⟨rfl, rfl⟩, hrun⟩ := hrun
  rcases hk with rfl | rfl
  all_goals
    simp only [hs, runs_bind, runs_pure] at hrun
    obtain ⟨_, _, -, _, _, -, rfl, -⟩ := hrun
    rfl

/-- The production appends what pushes the value of the expression. -/
abbrev CodesExpression (t : SymbolTable) (c : Setting) (E : Production Operand) (e : Expression) : Prop :=
  Codes t c E e.yield (e.Ends ·) fun x os => x.Gives (e.slots t) (fun m => e.value t m) os

/-- A designator is read up to some point, by the loop behind its name. -/
abbrev LeadsDesignator (t : SymbolTable) (c : Setting) (E : Production Operand) (d : Designator) : Prop :=
  CodesTo t c Production.namedOperand (designatorStep E) d.yield (fun _ => True) (Designates t d)

theorem designator_field (hs : t.Sound) {d : Designator} {n : String} (hd : LeadsDesignator t c E d) :
    LeadsDesignator t c E (.field d n) := by
  rw [LeadsDesignator, Designator.yield]
  refine hd.extend (E := fun x y os => x.loading? = some os ∧ IsField t x.type n y)
    (fun _ _ _ _ => designatorStep_goes (.inl rfl)) (fun x => ?_) trivial ?_
  · rw [designatorStep]
    exact peek (k := .dot) (fun _ _ => rfl) (advance (map (fieldOf hs)))
  · rintro x os _ os' ⟨hgives, htype⟩ ⟨hx, e, he, rfl⟩
    rw [htype] at he
    simpa [Designates, Designator.slots, Designator.value, Designator.type, he] using
      hgives.field hx e.address e.type

theorem designator_element {d : Designator} {e : Expression} (hd : LeadsDesignator t c E d)
    (hE : CodesExpression t c E e) : LeadsDesignator t c E (.element d e) := by
  rw [LeadsDesignator, Designator.yield]
  refine hd.extend (E := fun x y os => ∃ (z : Operand) (os₁ os₂ os₃ : _), os = os₁ ++ (os₂ ++ os₃) ∧
    x.loading? = some os₁ ∧ z.Gives (e.slots t) (fun m => e.value t m) os₂ ∧ z.loading? = some os₃ ∧
      y = ⟨.element, t.types.element x.type⟩)
    (fun _ _ _ _ => designatorStep_goes (.inr rfl)) (fun x => ?_) trivial ?_
  · rw [designatorStep]
    exact peek (k := .leftBracket) (fun _ _ => rfl)
      (advance (map (elementOf hE (e.ends (by decide)))))
  · rintro x os _ os' ⟨hgives, htype⟩ ⟨z, os₁, os₂, os₃, rfl, hx, hz, hload, rfl⟩
    rw [htype]
    exact ⟨hgives.element hx hz hload _, rfl⟩

theorem designator {d : Designator} (hd : LeadsDesignator t c E d) :
    Codes t c (Production.designator E) d.yield (·.EndsDesignator) (Designates t d) := by
  rw [Production.designator]
  refine hd.last (fun s x r s' hrun hk => ?_) fun _ _ => trivial
  simp only [designatorStep, runs_bind, runs_peek] at hrun
  obtain ⟨_, _, ⟨rfl, rfl⟩, hrun⟩ := hrun
  split at hrun
  · next h => exact absurd h hk.1
  · next h => exact absurd h hk.2
  · exact runs_pure.1 hrun

/-! #### Factors, terms and sums -/

abbrev CodesFactor (t : SymbolTable) (c : Setting) (E : Production Operand) (f : Factor) : Prop :=
  Codes t c (Production.factor E) f.yield (f.Ends ·) fun x os =>
    x.Gives (f.slots t) (fun m => f.value t m) os

/-- A term is read up to some point, by the loop behind its first factor. -/
abbrev LeadsTerm (t : SymbolTable) (c : Setting) (E : Production Operand) (x : Term) : Prop :=
  CodesTo t c (Production.factor E) (Production.operation multiplying? (Production.factor E)) x.yield
    (x.Ends ·) fun y os => y.Gives (x.slots t) (fun m => x.value t m) os

/-- A sum is read up to some point, by the loop behind its first term. -/
abbrev LeadsSum (t : SymbolTable) (c : Setting) (E : Production Operand) (e : Expression) : Prop :=
  CodesTo t c (Production.firstTerm E) (Production.operation adding? (Production.term E)) e.yield
    (fun k => e.last.Ends k ∧ multiplying? k = none) fun y os =>
      y.Gives (e.slots t) (fun m => e.value t m) os

variable {f : Factor} {y : Term} {e : Expression}

theorem factor_designator {d : Designator} (hd : LeadsDesignator t c E d) :
    CodesFactor t c E (.designator d) := by
  rw [CodesFactor, Production.factor, Factor.yield]
  refine peek (k := .identifier) (fun rest _ => d.nextKind_yield rest) ?_
  change Codes t c (designatorFactor E) d.yield _ _
  rw [designatorFactor, ← List.append_nil d.yield]
  refine post ?_ (bind (designator hd)
    (fun x => check (b := false) (fun _ hrest => decide_eq_false hrest.2) ret) fun _ hF => hF.1)
  rintro x _ ⟨y, os, _, rfl, ⟨hgives, -⟩, rfl, rfl⟩
  simpa [Factor.slots, Factor.value] using hgives

theorem factor_literal {v : Int32} (hf : f = .number v ∨ f = .character v) :
    CodesFactor t c E f := by
  rw [CodesFactor, Production.factor]
  rcases hf with rfl | rfl
  · rw [Factor.yield]
    refine peek (k := .number) (fun _ _ => rfl) ?_
    refine post ?_ (literal (.inl rfl) ret)
    rintro _ _ ⟨rfl, rfl⟩
    simpa [Factor.slots, Factor.value] using Operand.Gives.constant v .int []
  · rw [Factor.yield]
    refine peek (k := .character) (fun _ _ => rfl) ?_
    refine post ?_ (literal (.inr rfl) ret)
    rintro _ _ ⟨rfl, rfl⟩
    simpa [Factor.slots, Factor.value] using Operand.Gives.constant v .char []

theorem factor_parentheses (hE : CodesExpression t c E e) :
    CodesFactor t c E (.parentheses e) := by
  rw [CodesFactor, Production.factor, Factor.yield]
  have hend : Token.Kind.rightParen.EndsExpression := by decide
  refine peek (k := .leftParen) (fun _ _ => rfl) (advance ?_)
  refine post ?_ (bind hE (fun x => expect ret) fun _ _ => e.ends hend)
  rintro x _ ⟨_, os, _, rfl, hgives, rfl, rfl⟩
  simpa [Factor.slots, Factor.value] using hgives

theorem term_product {o : Multiplying} (hy : LeadsTerm t c E y) (hf : CodesFactor t c E f) :
    LeadsTerm t c E (.product y o f) := by
  refine hy.extend (fun _ _ _ _ => operation_goes o.multiplying?_kind)
    (fun x => operation o.multiplying?_kind hf) (y.ends o.endsFactor) ?_
  rintro x os _ os' hgives ⟨z, os₁, os₂, os₃, rfl, hx, hz, hload, rfl⟩
  refine .onStack (hgives.operator hx hz hload (b := fun _ v w => o.apply v w) (fun m => ?_) ?_ ?_) _
  all_goals cases o <;> rfl

theorem term (hy : LeadsTerm t c E y) : Codes t c (Production.term E) y.yield
    (fun k => y.Ends k ∧ multiplying? k = none) fun x os =>
      x.Gives (y.slots t) (fun m => y.value t m) os :=
  hy.last (fun _ _ _ _ hrun hk => World.Checks.operation_stops hrun hk.2) fun _ hk => hk.1

theorem sum_term (hy : LeadsTerm t c E y) : LeadsSum t c E (.term y) := by
  refine .first ?_
  rw [firstTerm]
  exact check (fun rest _ => decide_eq_false (y.nextKind_ne rest)) (term hy)

theorem sum_negated (hy : LeadsTerm t c E y) : LeadsSum t c E (.negated y) := by
  refine .first ?_
  rw [firstTerm, Expression.yield]
  refine check (b := true) (fun _ _ => rfl) (advance ?_)
  rw [← List.append_nil y.yield]
  refine post ?_ (bind (term hy) (fun x => negate) fun _ hrest => hrest)
  rintro z _ ⟨x, os, os', rfl, hgives, hz⟩
  exact hz _ _ _ hgives

theorem sum_sum {o : Adding} (he : LeadsSum t c E e) (hy : LeadsTerm t c E y) :
    LeadsSum t c E (.sum e o y) := by
  refine he.extend (fun _ _ _ _ => operation_goes o.adding?_kind)
    (fun x => operation o.adding?_kind (term hy)) ⟨e.last.ends o.endsTerm.1, o.endsTerm.2⟩ ?_
  rintro x os _ os' hgives ⟨z, os₁, os₂, os₃, rfl, hx, hz, hload, rfl⟩
  refine .onStack
    (hgives.operator hx hz hload (b := fun _ v w => return o.apply v w) (fun m => ?_) ?_ ?_) _
  all_goals cases o <;> rfl

/-! #### Nesting -/

theorem nested (h : ∀ depth, LeadsSum t c (nestedExpression depth) e) :
    ∀ depth, CodesExpression t c (nestedExpression depth) e
  | 0 => fun _ _ _ _ hrun => absurd hrun runs_throw
  | depth + 1 => (h depth).last
      (fun _ _ _ _ hrun hk => World.Checks.operation_stops hrun hk.2.2) fun _ hk => ⟨hk.1, hk.2.1⟩

variable (c)

mutual

theorem leadsSum (hs : t.Sound) (depth : Nat) :
    ∀ e : Expression, e.IsPlain t → LeadsSum t c (nestedExpression depth) e
  | .term y, h => sum_term (leadsTerm hs depth y h)
  | .negated y, h => sum_negated (leadsTerm hs depth y h)
  | .sum e _ y, h => sum_sum (leadsSum hs depth e h.1) (leadsTerm hs depth y h.2)

theorem leadsTerm (hs : t.Sound) (depth : Nat) :
    ∀ y : Term, y.IsPlain t → LeadsTerm t c (nestedExpression depth) y
  | .factor f, h => .first (codesFactor hs depth f h)
  | .product y _ f, h => term_product (leadsTerm hs depth y h.1) (codesFactor hs depth f h.2)

theorem codesFactor (hs : t.Sound) (depth : Nat) :
    ∀ f : Factor, f.IsPlain t → CodesFactor t c (nestedExpression depth) f
  | .designator d, h => factor_designator (leadsDesignator hs depth d h)
  | .number _, _ => factor_literal (.inl rfl)
  | .character _, _ => factor_literal (.inr rfl)
  | .parentheses e, h => factor_parentheses (nested (fun depth => leadsSum hs depth e h) depth)
  | .call _ _, h => False.elim h
  | .object _, h => False.elim h
  | .array _ _, h => False.elim h

theorem leadsDesignator (hs : t.Sound) (depth : Nat) :
    ∀ d : Designator, d.IsPlain t → LeadsDesignator t c (nestedExpression depth) d
  | .name _, h => .first (namedOperand hs h)
  | .field d _, h => designator_field hs (leadsDesignator hs depth d h)
  | .element d e, h => designator_element (leadsDesignator hs depth d h.1)
      (nested (fun depth => leadsSum hs depth e h.2) depth)

end

variable {c}

/-- Whatever the bound on nesting is. -/
theorem expression (hs : t.Sound) (h : e.IsPlain t) : CodesExpression t c Production.expression e := by
  intro s x s' rest hrun hn ht hahead hrest
  simp only [Production.expression, runs_bind, runs_read] at hrun
  obtain ⟨c, s, ⟨rfl, rfl⟩, hrun⟩ := hrun
  exact nested (fun depth => leadsSum c hs depth e h) _ hrun hn ht hahead hrest

end Codes

/-- Loading an operand that can be loaded appends the instructions for it. -/
theorem Production.runs_load {c : Setting} {s : Session} {x : Operand} {os : List Order}
    (h : x.loading? = some os) :
    (Production.load x).Runs c s () { s with assembly := s.assembly.emitAll os } :=
  runs_attempt.2 (.inl ⟨_, by rw [Emission.outcome_load, h]; rfl, rfl⟩)

/-- Where an expression without calls and creations is read without a mistake, its operand can be loaded.
The code that is then appended is read back as instructions which push the value of the expression and
change nothing else, and which do on the way what the evaluation of the expression does, in this order,
and stop where it stops. -/
theorem expression_computes {c : Setting} {s s₁ : Session} {e : Expression} {x : Operand}
    {rest : List Terminal} (hn : s.Named) (ht : s.table.Sound) (hahead : s.ahead = e.yield ++ rest)
    (hrest : e.Ends (nextKind rest)) (hplain : e.IsPlain s.table)
    (hslots : ∀ slot ∈ e.slots s.table, slot < 65536)
    (hrun : Production.expression.Runs c s x s₁) (hclean : s₁.mistakes = s.mistakes) :
    s₁.ahead = rest ∧ ∃ s' bytes is, (Production.load x).Runs c s₁ () s' ∧ s'.mistakes = s.mistakes ∧
      s'.assembly.code.toList = s.assembly.code.toList ++ bytes ∧
        Instruction.decode bytes = .ok is ∧
          ∀ m : Machine, Machine.execute is m = do return m.push (← e.value s.table m.memory) := by
  have happends := Codes.expression ht hplain hrun hn rfl hahead hrest
  obtain ⟨os, hgives, hcode⟩ := happends.code hclean
  obtain ⟨os', hload, hcomputes⟩ := hgives.computes
  obtain ⟨is, hdecode, hexecute⟩ := Order.decode_bytes (hcomputes.fits hslots)
  refine ⟨happends.takes.ahead, _, Order.bytes (os ++ os'), is, runs_load hload, hclean, ?_, hdecode,
    fun m => ?_⟩
  · rw [Assembly.toList_code_emitAll, hcode]
    simp [Order.bytes]
  · rw [hexecute]
    exact hcomputes.pushes m

theorem expression_computes_mixed :
    let c : Setting := ⟨{}, 20⟩
    -- a global variable `g`, an array `a` and an object `p` with a field `x`
    let ints := (SymbolTable.initial.openScope.declare .var "g" .int).2.arrayOf .int
    let members := (ints.2.newClass.2.openScope.declare .var "x" .int).2.closeScope
    let object := ints.2.newClass.1
    let locals := (members.2.setFields object members.1).openScope.declare .var "a" ints.1
    let t := (locals.2.declare .var "p" object).2
    let s₀ := (Session.start (Token.scan "-a[g] + p.x * (g - 3);") {}).advance
    let s := { s₀ with table := t }
    let g : Term := .factor (.designator (.name "g"))
    let e : Expression := .sum (.negated (.factor (.designator (.element (.name "a") (.term g))))) .plus
      (.product (.factor (.designator (.field (.name "p") "x"))) .times
        (.parentheses (.sum (.term g) .minus (.factor (.number 3)))))
    ∃ s₁, Production.expression.Runs c s ⟨.stack, .int⟩ s₁ ∧ s₁.ahead = [.word .semicolon] ∧
      ∃ s' bytes is, (Production.load ⟨.stack, .int⟩).Runs c s₁ () s' ∧ s'.mistakes = s.mistakes ∧
        s'.assembly.code.toList = s.assembly.code.toList ++ bytes ∧
          Instruction.decode bytes = .ok is ∧
            ∀ m : Machine, Machine.execute is m = do return m.push (← e.value t m.memory) := by
  intro c ints members object locals t s₀ s g e
  have ht : t.Sound := by
    have hvariable {t' : SymbolTable} (h : t'.Sound) (n : String) (type : TypeId) :
        (t'.declare .var n type).2.Sound := h.declare .var n (by simp)
    have hints : ints.2.Sound := (hvariable SymbolTable.Sound.initial.openScope _ _).arrayOf _
    have hmembers : members.2.Sound := (hvariable hints.newClass.openScope _ _).closeScope
    have hfields : ∀ id ∈ members.1, id ≠ .none := by decide +kernel
    exact hvariable (hvariable (hmembers.setFields object hfields).openScope _ _) _ _
  have hn : s.Named := by
    have hstart : s₀.Named := (Session.Named.start _ _).advance
    exact ⟨hstart.current, hstart.ahead, hstart.last⟩
  have hahead : s.ahead = e.yield ++ [.word .semicolon] := by decide +kernel
  have hnames : t.named? "g" = some ⟨"g", .int, .var 0 1⟩ ∧ t.named? "a" = some ⟨"a", ints.1, .var 0 2⟩ ∧
      t.named? "p" = some ⟨"p", object, .var 1 2⟩ := by decide +kernel
  have hplain : e.IsPlain t := by
    simp [e, g, Expression.IsPlain, Term.IsPlain, Factor.IsPlain, Designator.IsPlain, hnames,
      Entry.HasValue]
  have hslots : ∀ slot ∈ e.slots t, slot < 65536 := by decide +kernel
  have hok : (Production.expression.outcome c s).1 = .ok ⟨.stack, .int⟩ := by decide +kernel
  have hrun : Production.expression.Runs c s ⟨.stack, .int⟩ (Production.expression.outcome c s).2 :=
    Prod.ext hok rfl
  have hclean : (Production.expression.outcome c s).2.mistakes = s.mistakes := by decide +kernel
  exact ⟨_, hrun, expression_computes hn ht hahead (e.ends (by decide)) hplain hslots hrun hclean⟩

end MicroJava
