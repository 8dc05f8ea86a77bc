import MicroJava.Proofs.Reach

/-!
# What a program cannot change

A program changes values, but not in which variables they are: there are as many global variables as before,
what is allocated has the same parts, and a method that is called leaves the frame of its caller
(`Process.Persists`). This holds for each instruction (`Action.Steady`), and so from one point of a method
to another one (`Process.Leads.persists`).
-/

namespace MicroJava

/-- What kind of cell it is, and how many parts it has. -/
def Cell.shape : Cell → Option Bool × Nat
  | object fields => (none, fields.length)
  | array characters elements => (some characters, elements.length)

/-- The variables of the frame and all others are still there. -/
structure Storage.Persists (σ σ' : Storage) : Prop where
  locals : σ'.locals.length = σ.locals.length
  statics : σ'.statics.length = σ.statics.length
  cells : σ.cells.map Cell.shape <+: σ'.cells.map Cell.shape

theorem Storage.Persists.refl (σ : Storage) : σ.Persists σ := ⟨rfl, rfl, List.prefix_rfl⟩

section

variable {σ σ' : Storage} {c : Nat} {x y : Cell}

theorem Storage.map_shape_withCell (hx : σ.cells[c]? = some x) (hshape : y.shape = x.shape) :
    (σ.withCell c y).cells.map Cell.shape = σ.cells.map Cell.shape := by
  obtain ⟨hc, rfl⟩ := List.getElem?_eq_some_iff.1 hx
  have hc' : c < (σ.cells.map Cell.shape).length := by rwa [List.length_map]
  rw [Storage.withCell, List.map_set, hshape, ← List.getElem_map Cell.shape (h := hc')]
  exact List.set_getElem_self hc'

/-- A cell is replaced by one with the same parts. -/
theorem Storage.Persists.withCell (hx : σ.cells[c]? = some x) (hshape : y.shape = x.shape) :
    σ.Persists (σ.withCell c y) :=
  ⟨rfl, rfl, (map_shape_withCell hx hshape).symm ▸ List.prefix_rfl⟩

theorem Storage.Persists.cell (h : σ.Persists σ') (hx : σ.cells[c]? = some x) :
    ∃ y, σ'.cells[c]? = some y ∧ y.shape = x.shape := by
  obtain ⟨shapes, hshapes⟩ := h.cells
  have hc : c < (σ.cells.map Cell.shape).length := by
    rw [List.length_map]
    exact (List.getElem?_eq_some_iff.1 hx).1
  have hshape : (σ'.cells.map Cell.shape)[c]? = some x.shape := by
    rw [← hshapes, List.getElem?_append_left hc, List.getElem?_map, hx]
    rfl
  rw [List.getElem?_map] at hshape
  exact Option.map_eq_some_iff.1 hshape

/-- An object has as many fields as before. -/
theorem Storage.Persists.object (h : σ.Persists σ') {fields : List Datum}
    (hx : σ.cells[c]? = some (.object fields)) :
    ∃ fields', σ'.cells[c]? = some (.object fields') ∧ fields'.length = fields.length := by
  obtain ⟨y, hy, hshape⟩ := h.cell hx
  cases y with
  | object fields' => exact ⟨fields', hy, (Prod.mk.inj hshape).2⟩
  | array k elements => exact absurd (Prod.mk.inj hshape).1 nofun

/-- An array has as many elements as before. -/
theorem Storage.Persists.array (h : σ.Persists σ') {k : Bool} {elements : List Datum}
    (hx : σ.cells[c]? = some (.array k elements)) :
    ∃ elements', σ'.cells[c]? = some (.array k elements') ∧ elements'.length = elements.length := by
  obtain ⟨y, hy, hshape⟩ := h.cell hx
  cases y with
  | object fields => exact absurd (Prod.mk.inj hshape).1 nofun
  | array k' elements' =>
    obtain ⟨hk, hlength⟩ := Prod.mk.inj hshape
    obtain rfl := Option.some.inj hk
    exact ⟨elements', hy, hlength⟩

end

namespace Process

/-- How many variables the first of the methods has that are not left. -/
def base (p : Process) : Nat :=
  ((p.callers.filterMap Sum.getRight?).getLast?.getD p.storage.locals).length

/-- The variables of the first method and all others are still there. -/
structure Persists (p q : Process) : Prop where
  base : q.base = p.base
  statics : q.storage.statics.length = p.storage.statics.length
  cells : p.storage.cells.map Cell.shape <+: q.storage.cells.map Cell.shape

namespace Persists

variable {p q r : Process}

theorem refl (p : Process) : p.Persists p := ⟨rfl, rfl, List.prefix_rfl⟩

theorem trans (h : p.Persists q) (h' : q.Persists r) : p.Persists r :=
  ⟨h'.base.trans h.base, h'.statics.trans h.statics, h.cells.trans h'.cells⟩

/-- A process with the same callers. -/
theorem of_storage (hcallers : q.callers = p.callers) (h : p.storage.Persists q.storage) :
    p.Persists q := by
  refine ⟨?_, h.statics, h.cells⟩
  unfold Process.base
  rw [hcallers]
  rcases (p.callers.filterMap Sum.getRight?).getLast? with _ | locals
  · exact h.locals
  · rfl

/-- Where no method is called that is not left, the variables are those of the frame. -/
theorem storage (h : p.Persists q) (hp : p.callers = []) (hq : q.callers = []) :
    p.storage.Persists q.storage := by
  have hbase := h.base
  simp only [Process.base, hp, hq, List.filterMap_nil, List.getLast?_nil, Option.getD_none] at hbase
  exact ⟨hbase, h.statics, h.cells⟩

end Persists

end Process

/-! ### What actions find -/

namespace Action

variable {α : Type} {p p' : Process} {c : Nat} {x : Cell} {k : Bool} {elements fields : List Datum}
  {i : Int32} {n : Nat}

theorem pure_eq_ok {a b : α} : (Pure.pure b : Action α) p = .ok (a, p') ↔ b = a ∧ p' = p := by
  refine ⟨fun h => ?_, ?_⟩
  · obtain ⟨rfl, rfl⟩ := Prod.mk.inj (Except.ok.inj h)
    exact ⟨rfl, rfl⟩
  · rintro ⟨rfl, rfl⟩
    rfl

theorem want_eq_ok {o : Option α} {reason : Stop} {a : α} :
    want o reason p = .ok (a, p') ↔ o = some a ∧ p' = p := by
  rcases o with _ | b
  · exact ⟨nofun, nofun⟩
  · exact pure_eq_ok.trans (by simp)

theorem getCell_eq_ok : getCell c p = .ok (x, p') ↔ p.storage.cells[c]? = some x ∧ p' = p := want_eq_ok

theorem fieldsOf_eq_ok : fieldsOf x p = .ok (fields, p') ↔ x = .object fields ∧ p' = p := by
  rcases x with fields' | ⟨k, elements⟩
  · exact pure_eq_ok.trans (by simp)
  · exact ⟨nofun, nofun⟩

theorem elementsOf_eq_ok : elementsOf k x p = .ok (elements, p') ↔ x = .array k elements ∧ p' = p := by
  rcases x with fields | ⟨k', elements'⟩
  · exact ⟨nofun, nofun⟩
  · show (if k' = k then (Pure.pure elements' : Action _) else stop .stuck) p = _ ↔ _
    split
    · next hk => exact pure_eq_ok.trans (by simp [hk])
    · next hk => exact ⟨nofun, fun h => absurd (Cell.array.inj h.1).1 hk⟩

theorem indexIn_eq_ok : indexIn elements i p = .ok (n, p') ↔
    (0 ≤ i ∧ i.toInt < elements.length) ∧ n = i.toInt.toNat ∧ p' = p := by
  unfold indexIn
  split
  · next h => exact pure_eq_ok.trans (by simp [h, eq_comm])
  · next h => exact ⟨nofun, fun h' => absurd h'.1 h⟩

end Action

/-- The action leaves all variables. -/
def Action.Steady {α : Type} (m : Action α) : Prop := ∀ ⦃p a p'⦄, m p = .ok (a, p') → p.Persists p'

namespace Action.Steady

open Process

variable {α β : Type} {m : Action α} {f : α → Action β} {g : Process → Option α} {reason : Stop}

theorem pure (a : α) : Steady (Pure.pure a : Action α) := by
  intro p b p' h
  obtain ⟨rfl, rfl⟩ := Prod.mk.inj (Except.ok.inj h)
  exact .refl p

theorem stop : Steady (Action.stop reason : Action α) := nofun

theorem bind (hm : Steady m) (hf : ∀ a, Steady (f a)) : Steady (m >>= f) := by
  intro p b p' h
  obtain ⟨a, p₁, h₁, h₂⟩ := bind_eq_ok.1 h
  exact (hm h₁).trans (hf a h₂)

theorem discard (h : Steady m) : Steady (Functor.discard m) := by
  have heq : Functor.discard m = (m >>= fun _ => Pure.pure ()) := rfl
  rw [heq]
  exact h.bind fun _ => pure ()

theorem want (x : Option α) : Steady (Action.want x reason) := by
  cases x with
  | none => exact stop
  | some a => exact pure a

/-- An action that gives what it finds. -/
theorem look : Steady (fun p => Action.want (g p) reason p) := fun _ _ _ h => want _ h

/-- An action that only changes the process. -/
theorem put {h : Process → Process} (hcallers : ∀ p, (h p).callers = p.callers)
    (hstorage : ∀ p : Process, p.storage.Persists (h p).storage) :
    Steady (fun p => .ok ((), h p) : Action Unit) := by
  intro p _ p' hm
  obtain ⟨-, rfl⟩ := Prod.mk.inj (Except.ok.inj hm)
  exact .of_storage (hcallers p) (hstorage p)

/-! ### Parts of instructions -/

theorem goto (place : Nat) : Steady (Action.goto place) := put (fun _ => rfl) fun _ => .refl _

theorem push (d : Datum) : Steady (Action.push d) := put (fun _ => rfl) fun _ => .refl _

theorem pop : Steady Action.pop := by
  rintro ⟨place, _ | ⟨d, stack⟩, callers, σ⟩ a p' h
  · contradiction
  · obtain ⟨-, rfl⟩ := Prod.mk.inj (Except.ok.inj h)
    exact .of_storage rfl (.refl σ)

theorem popNumber : Steady Action.popNumber := bind pop fun
  | .number v => pure v
  | .reference _ => stop

theorem popCell : Steady Action.popCell := bind pop fun
  | .number _ => stop
  | .reference c => pure c

theorem popAll : ∀ n, Steady (Action.popAll n)
  | 0 => pure _
  | n + 1 => bind pop fun _ => bind (popAll n) fun _ => pure _

theorem setLocal (slot : Nat) (d : Datum) : Steady (Action.setLocal slot d) :=
  put (fun _ => rfl) fun _ => ⟨List.length_set, rfl, List.prefix_rfl⟩

theorem setStatic (slot : Nat) (d : Datum) : Steady (Action.setStatic slot d) :=
  put (fun _ => rfl) fun _ => ⟨rfl, List.length_set, List.prefix_rfl⟩

theorem allocate (x : Cell) : Steady (Action.allocate x) :=
  put (fun _ => rfl) fun _ => ⟨rfl, rfl, by rw [List.map_append]; exact List.prefix_append _ _⟩

theorem read : Steady Action.read := by
  rintro ⟨place, stack, callers, ⟨locals, statics, cells, _ | ⟨v, input⟩, output⟩⟩ a p' h
  · contradiction
  · obtain ⟨-, rfl⟩ := Prod.mk.inj (Except.ok.inj h)
    exact .of_storage rfl ⟨rfl, rfl, List.prefix_rfl⟩

theorem fieldsOf : ∀ x : Cell, Steady (Action.fieldsOf x)
  | .object _ => pure _
  | .array _ _ => stop

theorem elementsOf (k : Bool) : ∀ x : Cell, Steady (Action.elementsOf k x)
  | .object _ => stop
  | .array k' elements => by
    show Steady (if k' = k then Pure.pure elements else Action.stop .stuck)
    split
    · exact pure _
    · exact stop

theorem indexIn (elements : List Datum) (i : Int32) : Steady (Action.indexIn elements i) := by
  unfold Action.indexIn
  split
  · exact pure _
  · exact stop

theorem lengthOf : ∀ x : Cell, Steady (Action.lengthOf x)
  | .object _ => stop
  | .array _ _ => pure _

/-! ### Instructions -/

theorem loadLocal (slot : Nat) : Steady (Action.loadLocal slot) := bind look push

theorem storeLocal (slot : Nat) : Steady (Action.storeLocal slot) := bind pop (setLocal slot)

theorem loadField (slot : Nat) : Steady (Action.loadField slot) :=
  bind popCell fun _ => bind look fun x => bind (fieldsOf x) fun _ => bind (want _) push

theorem loadElement (k : Bool) : Steady (Action.loadElement k) :=
  bind popNumber fun i => bind popCell fun _ => bind look fun x => bind (elementsOf k x) fun _ =>
    bind (indexIn _ i) fun _ => bind (want _) push

/-- A cell is replaced by one with the same parts. -/
theorem setCell {p p' : Process} {u : Unit} {c : Nat} {x y : Cell} (hx : p.storage.cells[c]? = some x)
    (hshape : y.shape = x.shape) (h : Action.setCell c y p = .ok (u, p')) : p.Persists p' := by
  obtain ⟨-, rfl⟩ := Prod.mk.inj (Except.ok.inj h)
  exact .of_storage rfl (.withCell hx hshape)

theorem storeField (slot : Nat) : Steady (Action.storeField slot) := by
  refine bind pop fun d => bind popCell fun c p u p' h => ?_
  obtain ⟨x, p₁, h₁, h₂⟩ := bind_eq_ok.1 h
  obtain ⟨fields, p₂, h₂, h₃⟩ := bind_eq_ok.1 h₂
  obtain ⟨hx, rfl⟩ := getCell_eq_ok.1 h₁
  obtain ⟨rfl, rfl⟩ := fieldsOf_eq_ok.1 h₂
  have hshape : (Cell.object (fields.set slot d)).shape = (Cell.object fields).shape :=
    congrArg (Prod.mk none) List.length_set
  exact setCell hx hshape h₃

theorem storeElement (k : Bool) : Steady (Action.storeElement k) := by
  refine bind pop fun d => bind popNumber fun i => bind popCell fun c p u p' h => ?_
  obtain ⟨x, p₁, h₁, h₂⟩ := bind_eq_ok.1 h
  obtain ⟨elements, p₂, h₂, h₃⟩ := bind_eq_ok.1 h₂
  obtain ⟨j, p₃, h₃, h₄⟩ := bind_eq_ok.1 h₃
  obtain ⟨hx, rfl⟩ := getCell_eq_ok.1 h₁
  obtain ⟨rfl, rfl⟩ := elementsOf_eq_ok.1 h₂
  obtain ⟨-, -, rfl⟩ := indexIn_eq_ok.1 h₃
  have hshape : (Cell.array k (elements.set j d)).shape = (Cell.array k elements).shape :=
    congrArg (Prod.mk (some k)) List.length_set
  exact setCell hx hshape h₄

theorem newArray (k : Bool) : Steady (Action.newArray k) := by
  refine bind popNumber fun n => ?_
  split
  · exact allocate _
  · exact stop

theorem combine (h : Int32 → Int32 → Option Int32) : Steady (Action.combine h) :=
  bind popNumber fun _ => bind popNumber fun _ => bind (want _) fun _ => push _

theorem branch (c : Comparison) (o : Option Nat) : Steady (Action.branch c o) := by
  refine bind pop fun _ => bind pop fun _ => bind (want _) fun b => ?_
  split
  · exact bind (want _) goto
  · exact pure _

theorem enter (parameters size : Nat) : Steady (Action.enter parameters size) := by
  refine bind (popAll parameters) fun ds p u p' h => ?_
  obtain ⟨-, rfl⟩ := Prod.mk.inj (Except.ok.inj h)
  refine ⟨?_, rfl, List.prefix_rfl⟩
  simp [Process.base, List.getLast?_cons]

theorem exit : Steady Action.exit := by
  rintro ⟨place, stack, _ | ⟨back | locals, callers⟩, σ⟩ u p' h
  · contradiction
  · contradiction
  · obtain ⟨-, rfl⟩ := Prod.mk.inj (Except.ok.inj h)
    refine ⟨?_, rfl, List.prefix_rfl⟩
    simp [Process.base, List.getLast?_cons]

theorem ret : Steady Action.ret := by
  rintro ⟨place, stack, _ | ⟨back | locals, callers⟩, σ⟩ u p' h
  · contradiction
  · obtain ⟨-, rfl⟩ := Prod.mk.inj (Except.ok.inj h)
    exact ⟨rfl, rfl, List.prefix_rfl⟩
  · contradiction

theorem call (o : Option Nat) (back : Nat) : Steady (Action.call o back) := by
  refine bind ?_ fun _ => bind (want _) goto
  intro p u p' h
  obtain ⟨-, rfl⟩ := Prod.mk.inj (Except.ok.inj h)
  exact ⟨rfl, rfl, List.prefix_rfl⟩

theorem print (v width : Int32) : Steady (Action.print v width) :=
  put (fun _ => rfl) fun _ => ⟨rfl, rfl, List.prefix_rfl⟩

theorem execute (i : Instruction) : Steady (Action.execute i) := by
  obtain ⟨offset, op, operands⟩ := i
  cases op with
  | load | load0 | load1 | load2 | load3 => exact loadLocal _
  | store | store0 | store1 | store2 | store3 => exact storeLocal _
  | getStatic => exact bind look push
  | putStatic => exact bind pop (setStatic _)
  | getField => exact loadField _
  | putField => exact storeField _
  | const0 | const1 | const2 | const3 | const4 | const5 | constMinus1 | const => exact push _
  | add | sub | mul | div | rem | shl | shr => exact combine _
  | neg => exact bind popNumber fun _ => push _
  | inc =>
    refine bind look fun d => ?_
    cases d with
    | number v => exact setLocal _ _
    | reference c => exact stop
  | newObject => exact allocate _
  | newArray => exact newArray _
  | arrayLoad | charLoad => exact loadElement _
  | arrayStore | charStore => exact storeElement _
  | arrayLength => exact bind popCell fun _ => bind look fun x => bind (lengthOf x) fun _ => push _
  | pop => exact discard pop
  | dup => exact bind pop fun _ => bind (push _) fun _ => push _
  | dup2 =>
    exact bind pop fun _ => bind pop fun _ => bind (push _) fun _ => bind (push _) fun _ =>
      bind (push _) fun _ => push _
  | jump => exact bind (want _) goto
  | jumpEq | jumpNe | jumpLt | jumpLe | jumpGt | jumpGe => exact branch _ _
  | call => exact call _ _
  | ret => exact ret
  | enter => exact enter _ _
  | exit => exact exit
  | read | readChar => exact bind read fun _ => push _
  | print | printChar => exact bind popNumber fun _ => bind popNumber fun _ => print _ _
  | trap => exact stop
  | nop => exact pure _

end Action.Steady

/-- Between two points, all variables stay. -/
theorem Process.Leads.persists {code : List UInt8} {p q : Process} (h : p.Leads code q) : p.Persists q := by
  induction h with
  | refl => exact .refl p
  | tail _ hstep ih =>
    obtain ⟨i, -, hi⟩ := next_eq_ok.1 hstep
    have hlast := Action.Steady.execute i hi
    exact ih.trans ⟨hlast.base, hlast.statics, hlast.cells⟩

end MicroJava
