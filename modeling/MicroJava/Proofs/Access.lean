import MicroJava.Proofs.Trace

/-!
# How operands change the stack

An operand keeps up to two values on the stack before it is loaded (`Operand.depth`): a field needs
its object, and an element its array and index. `Lines` says of an emission what `Emits` says of a
production. Loading leaves one value in place of those that the operand keeps (`Lines.load`), storing
leaves none (`Lines.store`), and where an operand allows neither, nothing is said of the depth, since
that is a mistake.
-/

namespace MicroJava

/-- How many values an operand keeps on the stack. -/
def Operand.depth (x : Operand) : Nat :=
  match x.place with
  | .stack | .field _ => 1
  | .element => 2
  | _ => 0

/-- A plain instruction that pops `k` values and pushes `j`. -/
structure Straight (op : Opcode) (operands : List Int) (k j : Nat) : Prop where
  relative : op.isRelative = false
  length : operands.length = op.fields.length
  enter : op ≠ .enter
  ret : op ≠ .ret
  trap : op ≠ .trap
  pops : op.pops = k
  pushes : op.pushes = j

/-- For an opcode that is written out, all three are computed. -/
theorem Straight.of_counts {op : Opcode} {operands : List Int} {k j : Nat}
    (h : (op.isRelative || op = .enter || op = .ret || op = .trap) = false)
    (hlength : operands.length = op.fields.length) (hcounts : (op.pops, op.pushes) = (k, j)) :
    Straight op operands k j := by
  simp only [Bool.or_eq_false_iff, decide_eq_false_iff_not] at h
  obtain ⟨⟨⟨hrelative, henter⟩, hret⟩, htrap⟩ := h
  obtain ⟨rfl, rfl⟩ := Prod.mk.inj hcounts
  exact ⟨hrelative, hlength, henter, hret, htrap, rfl, rfl⟩

/-- An emission in the block moves the session, and leads from depths that `P` allows to depths that
`Q` allows. -/
def Lines (F : Frame) {ε α : Type} (P : Option Nat → Prop) (e : Emission ε α)
    (Q : α → Option Nat → Prop) : Prop :=
  ∀ ⦃s x⦄, P x → ∃ y, Steps F s x { s with assembly := (e.outcome s.assembly).2 } y ∧
    ∀ a, (e.outcome s.assembly).1 = .ok a → Q a y

variable {F : Frame} {n k j : Nat} {q : Prop}

namespace Lines

open Emission

variable {ε α β : Type} {P : Option Nat → Prop} {Q : α → Option Nat → Prop}

theorem pure {a : α} (h : ∀ x, P x → Q a x) : Lines F P (pure a : Emission ε α) Q := by
  intro s x hx
  refine ⟨x, .refl, fun b hb => ?_⟩
  rw [outcome_pure] at hb
  obtain rfl := Except.ok.inj hb
  exact h x hx

theorem throw {p : ε} : Lines F P (throw p : Emission ε α) Q :=
  fun _ x _ => ⟨x, .refl, fun _ hb => by simp [outcome_throw] at hb⟩

theorem bind {e : Emission ε α} {f : α → Emission ε β} {R : β → Option Nat → Prop}
    (he : Lines F P e Q) (hf : ∀ a, Lines F (Q a) (f a) R) : Lines F P (e >>= f) R := by
  intro s x hx
  obtain ⟨y, hsteps, hy⟩ := he (s := s) hx
  rw [outcome_bind]
  rcases h : outcome e s.assembly with ⟨p | a, a₁⟩
  · rw [h] at hsteps
    exact ⟨y, hsteps, fun b hb => by simp at hb⟩
  · rw [h] at hsteps hy
    obtain ⟨z, hsteps', hz⟩ := hf a (s := { s with assembly := a₁ }) (hy a rfl)
    exact ⟨z, hsteps.trans hsteps', hz⟩

theorem emit {op : Opcode} {operands : List Int} (h : Straight op operands k j) :
    Lines F (Holds (n + k) q) (emit op operands : Emission ε Unit) fun _ => Holds (n + j) q := by
  intro s x hx
  have hwithin : (Item.plain op operands).Within F :=
    ⟨⟨h.relative, h.length⟩, h.enter, fun _ _ hi => by simp at hi, fun _ hi => by simp at hi,
      fun _ => ⟨h.ret, h.trap⟩⟩
  rcases x with _ | d
  · exact ⟨none, (Move.write hwithin .none rfl).steps, fun _ _ => holds_none⟩
  · obtain ⟨rfl, hq⟩ := hx d rfl
    refine ⟨some (n + j), (Move.write hwithin (.some ?_) rfl).steps, fun _ _ => ?_⟩
    · simp only [Item.Effect, if_neg h.ret, h.pops, h.pushes]
      omega
    · exact holds_some.2 ⟨rfl, hq⟩

end Lines

/-! ### Loading and storing -/

theorem straight_constantCode (v : Int32) :
    Straight (Emission.constantCode v).1 (Emission.constantCode v).2 0 1 := by
  unfold Emission.constantCode
  repeat' split
  all_goals exact .of_counts rfl rfl rfl

theorem straight_frameLoadCode (slot : Nat) :
    Straight (Emission.frameLoadCode slot).1 (Emission.frameLoadCode slot).2 0 1 := by
  unfold Emission.frameLoadCode
  split <;> exact .of_counts rfl rfl rfl

theorem straight_frameStoreCode (slot : Nat) :
    Straight (Emission.frameStoreCode slot).1 (Emission.frameStoreCode slot).2 1 0 := by
  unfold Emission.frameStoreCode
  split <;> exact .of_counts rfl rfl rfl

theorem straight_elementLoad (t : TypeId) : Straight (Emission.elementLoad t) [] 2 1 := by
  unfold Emission.elementLoad
  split <;> exact .of_counts rfl rfl rfl

theorem straight_elementStore (t : TypeId) : Straight (Emission.elementStore t) [] 3 0 := by
  unfold Emission.elementStore
  split <;> exact .of_counts rfl rfl rfl

namespace Lines

variable {ε : Type}

theorem constant (v : Int32) :
    Lines F (Holds n q) (Emission.constant v : Emission ε Unit) fun _ => Holds (n + 1) q :=
  .emit (straight_constantCode v)

theorem load (x : Operand) :
    Lines F (Holds (n + x.depth) q) (Emission.load x) fun _ => Holds (n + 1) q := by
  obtain ⟨place, type⟩ := x
  cases place with
  | constant v => exact .constant v
  | frame slot => exact .emit (straight_frameLoadCode slot)
  | global slot =>
    have h : Straight .getStatic [(slot : Int)] 0 1 := .of_counts rfl rfl rfl
    exact .emit h
  | stack => exact .pure fun _ => id
  | field slot =>
    have h : Straight .getField [(slot : Int)] 1 1 := .of_counts rfl rfl rfl
    exact .emit h
  | element => exact .emit (straight_elementLoad type)
  | method id => exact .throw

/-- Storing takes the value on top and what the operand keeps under it. -/
theorem store (x : Operand) :
    Lines F (Holds (n + x.depth + 1) q) (Emission.store x) fun _ => Holds n q := by
  obtain ⟨place, type⟩ := x
  cases place with
  | frame slot => exact .emit (straight_frameStoreCode slot)
  | global slot =>
    have h : Straight .putStatic [(slot : Int)] 1 0 := .of_counts rfl rfl rfl
    exact .emit h
  | field slot =>
    have h : Straight .putField [(slot : Int)] 2 0 := .of_counts rfl rfl rfl
    exact .emit h
  | element => exact .emit (straight_elementStore type)
  | constant v => exact .throw
  | stack => exact .throw
  | method id => exact .throw

theorem combine {op : Opcode} (h : Straight op [] 2 1) :
    Lines F (Holds (n + 2) q) (Emission.combine (some op) : Emission ε Unit)
      fun _ => Holds (n + 1) q :=
  .emit h

theorem keepPlace (x : Operand) :
    Lines F (Holds (n + x.depth) q) (Emission.keepPlace x)
      fun _ => Holds (n + x.depth + x.depth) q := by
  obtain ⟨place, type⟩ := x
  cases place with
  | global slot => exact .pure fun _ => id
  | field slot =>
    have h : Straight .dup [] 1 2 := .of_counts rfl rfl rfl
    exact .emit h
  | element =>
    have h : Straight .dup2 [] 2 4 := .of_counts rfl rfl rfl
    exact .emit h
  | constant v => exact .throw
  | frame slot => exact .throw
  | stack => exact .throw
  | method id => exact .throw

/-- The old value comes on top of what storing needs. -/
theorem loadForUpdate (x : Operand) :
    Lines F (Holds (n + x.depth) q) (Emission.loadForUpdate x)
      fun _ => Holds (n + x.depth + 1) q := by
  obtain ⟨place, type⟩ := x
  cases place with
  | frame slot => exact .load ⟨.frame slot, type⟩
  | global slot => exact .load ⟨.global slot, type⟩
  | field slot => exact .bind (.keepPlace ⟨.field slot, type⟩) fun _ => .load ⟨.field slot, type⟩
  | element => exact .bind (.keepPlace ⟨.element, type⟩) fun _ => .load ⟨.element, type⟩
  | constant v => exact .throw
  | stack => exact .throw
  | method id => exact .throw

theorem incrementPlace (x : Operand) (step : Int32) :
    Lines F (Holds (n + x.depth) q) (Emission.incrementPlace x step) fun _ => Holds n q := by
  have hadd : Straight .add [] 2 1 := .of_counts rfl rfl rfl
  refine .bind (.keepPlace x) fun _ => .bind (.load x) fun _ => .bind (.constant step) fun _ => ?_
  exact .bind (combine hadd) fun _ => .store x

theorem incrementFrame (slot : Nat) (step : Int) :
    Lines F (Holds n q) (Emission.incrementFrame slot step : Emission ε Unit)
      fun _ => Holds n q := by
  have hinc : Straight .inc [(slot : Int), step] 0 0 := .of_counts rfl rfl rfl
  exact .emit hinc

/-- An assignment finds what its target keeps, the old value if there is an operator, and what its
value keeps. -/
theorem assign (target value : Operand) {operator : Option Opcode}
    (hop : ∀ op, operator = some op → Straight op [] 2 1) :
    Lines F (Holds (n + target.depth + operator.isSome.toNat + value.depth) q)
      (Emission.assign target value operator) fun _ => Holds n q := by
  refine .bind (.load value) fun _ => ?_
  rcases operator with _ | op
  · exact .bind (.pure fun _ => id) fun _ => .store target
  · exact .bind (combine (hop op rfl)) fun _ => .store target

theorem newObject (size : Nat) :
    Lines F (Holds n q) (Emission.newObject size : Emission ε Unit) fun _ => Holds (n + 1) q := by
  have hnew : Straight .newObject [(size : Int)] 0 1 := .of_counts rfl rfl rfl
  exact .emit hnew

/-- A new array takes its length from the stack if none is given. -/
theorem newArray (length : Option Int32) (element : TypeId) :
    Lines F (Holds (n + length.isNone.toNat) q)
      (Emission.newArray length element : Emission ε Unit) fun _ => Holds (n + 1) q := by
  have hnew : ∀ v : Int, Straight .newArray [v] 1 1 := fun _ => .of_counts rfl rfl rfl
  refine .bind (Q := fun _ => Holds (n + 1) q) ?_ fun _ => .emit (hnew _)
  rcases length with _ | v
  · exact .pure fun _ => id
  · exact .constant v

theorem storeElement (element : TypeId) :
    Lines F (Holds (n + 3) q) (Emission.storeElement element : Emission ε Unit)
      fun _ => Holds n q :=
  .emit (straight_elementStore element)

end Lines

/-! ### Writing in productions -/

namespace Emits

open Production

variable {α : Type} {P : Option Nat → Prop} {Q : α → Option Nat → Prop}

theorem write {e : Emission Fault α} (h : Lines F P e Q) : Emits F P (write e) Q := by
  intro s a s' x hc hrun hx
  obtain ⟨assembly, hs, rfl⟩ := runs_write.1 hrun
  obtain ⟨y, hsteps, hy⟩ := h (s := s) hx
  rw [hs] at hsteps hy
  exact ⟨y, hsteps, hy a rfl⟩

theorem emit {op : Opcode} {operands : List Int} (h : Straight op operands k j) :
    Emits F (Holds (n + k) q) (emit op operands) fun _ => Holds (n + j) q :=
  .write (.emit h)

/-- An instruction that combines two values into one. -/
theorem combine {op : Opcode} (h : Straight op [] 2 1) :
    Emits F (Holds (n + 2) q) (Production.emit op) fun _ => Holds (n + 1) q :=
  .write (.emit h)

/-- Where an operand does not allow what is attempted, there is a mistake. -/
theorem attempt {e : Emission Problem Unit} (h : Lines F P e fun _ => Holds n q) :
    Emits F P (attempt e) fun _ => Holds n q := by
  intro s u s' x hc hrun hx
  obtain ⟨y, hsteps, hy⟩ := h (s := s) hx
  rcases runs_attempt.1 hrun with ⟨assembly, hs, rfl⟩ | ⟨p, assembly, hs, rfl⟩
  · rw [hs] at hsteps hy
    exact ⟨y, hsteps, hy () rfl⟩
  · rw [hs] at hsteps
    exact ⟨none, .snoc hsteps (.report p []), holds_none⟩

theorem load (x : Operand) :
    Emits F (Holds (n + x.depth) q) (load x) fun _ => Holds (n + 1) q :=
  .attempt (.load x)

/-! #### Labels -/

theorem newLabel (hb : F.branches) : Emits F P (Production.write Emission.newLabel)
    fun l x => F.firstLabel ≤ l.index ∧ P x := by
  refine .move fun s l s' x hc hrun hx => ?_
  obtain ⟨assembly, hs, rfl⟩ := runs_write.1 hrun
  rw [Emission.Succeeds, Emission.outcome_newLabel, Prod.mk.injEq, Except.ok.injEq] at hs
  obtain ⟨rfl, rfl⟩ := hs
  exact ⟨x, .newLabel hb, hc.labels, hx⟩

theorem define {l : Label} (hb : F.branches) (hl : F.firstLabel ≤ l.index) :
    Emits F (Holds 0 q) (Production.write (Emission.define l)) fun _ => Holds 0 q := by
  refine .move fun s u s' x hc hrun hx => ?_
  obtain ⟨assembly, hs, rfl⟩ := runs_write.1 hrun
  exact ⟨x, .define hb hl (fun k hk => (hx k hk).1) hs, hx⟩

/-- A jump takes what it compares, and nothing else may be on the stack. -/
theorem jumpTo {op : Opcode} {l : Label} (hb : F.branches) (hop : op.isJump)
    (hl : F.firstLabel ≤ l.index) :
    Emits F (Holds op.pops q)
      (Production.write (do Emission.emit op; Emission.reference l)) fun _ => Holds 0 q := by
  refine .move fun s u s' x hc hrun hx => ?_
  obtain ⟨assembly, hs, rfl⟩ := runs_write.1 hrun
  have hwithin : (Item.jump op l).Within F := by
    refine ⟨hop, ?_, ?_, fun _ hi => by simp at hi, fun hn => by simp [hb] at hn⟩
    · rintro rfl
      exact absurd hop (by decide)
    · rintro op' l' ⟨⟩
      exact hl
  rcases x with _ | d
  · exact ⟨none, .write hwithin .none hs, holds_none⟩
  · obtain ⟨rfl, hq⟩ := hx d rfl
    exact ⟨some 0, .write hwithin (.some ⟨rfl, rfl⟩) hs, holds_some.2 ⟨rfl, hq⟩⟩

theorem jump {l : Label} (hb : F.branches) (hl : F.firstLabel ≤ l.index) :
    Emits F (Holds 0 q) (Production.write (Emission.jump l)) fun _ => Holds 0 q :=
  jumpTo hb rfl hl

theorem jumpIfFalse {b : Branch} (hb : F.branches) (hl : F.firstLabel ≤ b.whenFalse.index) :
    Emits F (Holds 2 q) (Production.write (Emission.jumpIfFalse b)) fun _ => Holds 0 q := by
  have hjump : b.comparison.inverse.jump.isJump ∧ b.comparison.inverse.jump.pops = 2 := by
    cases b.comparison <;> exact ⟨rfl, rfl⟩
  exact hjump.2 ▸ jumpTo hb hjump.1 hl

theorem jumpIfTrue {b : Branch} (hb : F.branches) (hl : F.firstLabel ≤ b.whenTrue.index) :
    Emits F (Holds 2 q) (Production.write (Emission.jumpIfTrue b)) fun _ => Holds 0 q := by
  have hjump : b.comparison.jump.isJump ∧ b.comparison.jump.pops = 2 := by
    cases b.comparison <;> exact ⟨rfl, rfl⟩
  exact hjump.2 ▸ jumpTo hb hjump.1 hl

/-- A call takes the parameters of the method, and leaves its value if it gives one. -/
theorem callTo {address p : Nat} {b : Bool} (h : F.callees address p b) :
    Emits F (Holds (n + p) q) (Production.write (Emission.call address))
      fun _ => Holds (n + b.toNat) q := by
  refine .move fun s u s' x hc hrun hx => ?_
  obtain ⟨assembly, hs, rfl⟩ := runs_write.1 hrun
  have hwithin : (Item.call address).Within F := by
    refine ⟨trivial, by simp [Item.opcode], fun _ _ hi => by simp at hi, ?_, fun _ => trivial⟩
    rintro target ⟨⟩
    exact ⟨p, b, h⟩
  rcases x with _ | d
  · exact ⟨none, .write hwithin .none hs, holds_none⟩
  · obtain ⟨rfl, hq⟩ := hx d rfl
    refine ⟨some (n + b.toNat), .write hwithin (.some ⟨p, b, h, ?_, ?_⟩) hs, holds_some.2 ⟨rfl, hq⟩⟩
    · omega
    · omega

/-- A method returns with its value on the stack, and nothing else. -/
theorem ret (hb : F.branches) : Emits F (Holds F.returns.toNat q) (Production.emit .ret) fun _ => Holds 0 q := by
  refine .move fun s u s' x hc hrun hx => ?_
  obtain rfl := runs_emit.1 hrun
  have hwithin : (Item.plain .ret []).Within F :=
    ⟨⟨rfl, rfl⟩, by simp [Item.opcode], fun _ _ hi => by simp at hi, fun _ hi => by simp at hi,
      fun hn => by simp [hb] at hn⟩
  rcases x with _ | d
  · exact ⟨none, .write hwithin .none rfl, holds_none⟩
  · obtain ⟨rfl, hq⟩ := hx d rfl
    exact ⟨some 0, .write hwithin (.some ⟨rfl, rfl⟩) rfl, holds_some.2 ⟨rfl, hq⟩⟩

end Emits

end MicroJava
