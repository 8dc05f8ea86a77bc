import MicroJava.Proofs.Shapes
import MicroJava.Proofs.Spots

/-!
# Code that updates variables

The code of an update takes from the stack what the operand of the variable has there, and replaces the
number in the variable by what is computed from it (`Spot.update`). Where the other number is computed by
code of its own, between loading and storing, the variable is still there when that is done
(`Spot.exists_put`), whatever that code calls.
-/

namespace MicroJava

open Process

variable {code : List UInt8} {js ks : List Item} {p q : Process} {x : Operand} {a : Spot} {d : Datum}

/-! ### Variables that are still there -/

/-- A field, if the cell is an object that has it. -/
def Cell.field? (slot : Nat) : Cell → Option Datum
  | object fields => fields[slot]?
  | array _ _ => none

/-- An element, if the cell is an array of this kind that has it. -/
def Cell.element? (k : Bool) (i : Int32) : Cell → Option Datum
  | object _ => none
  | array k' elements => if k' = k ∧ 0 ≤ i then elements[i.toInt.toNat]? else none

namespace Spot

variable {b : Spot} {σ : Storage} {c slot : Nat} {k : Bool} {i : Int32} {p' : Process} {d' : Datum}

/-- The value of the variable, if it is there. -/
def value? (σ : Storage) : Spot → Option Datum
  | frame slot => σ.locals[slot]?
  | global slot => σ.statics[slot]?
  | field c slot => σ.cells[c]?.bind (·.field? slot)
  | element k c i => σ.cells[c]?.bind (·.element? k i)

theorem get_eq_ok : a.get p = .ok (d, p') ↔ a.value? p.storage = some d ∧ p' = p := by
  cases a with
  | frame slot => exact Action.want_eq_ok
  | global slot => exact Action.want_eq_ok
  | field c slot =>
    simp only [get, value?, Action.bind_eq_ok, Action.getCell_eq_ok, Action.fieldsOf_eq_ok,
      Action.want_eq_ok, Option.bind_eq_some_iff]
    constructor
    · rintro ⟨_, _, ⟨hx, rfl⟩, fields, _, ⟨rfl, rfl⟩, hd, rfl⟩
      exact ⟨⟨_, hx, hd⟩, rfl⟩
    · rintro ⟨⟨fields | ⟨k, elements⟩, hx, hd⟩, rfl⟩
      · exact ⟨_, _, ⟨hx, rfl⟩, fields, _, ⟨rfl, rfl⟩, hd, rfl⟩
      · contradiction
  | element k c i =>
    simp only [get, value?, Action.bind_eq_ok, Action.getCell_eq_ok, Action.elementsOf_eq_ok,
      Action.indexIn_eq_ok, Action.want_eq_ok, Option.bind_eq_some_iff]
    constructor
    · rintro ⟨_, _, ⟨hx, rfl⟩, elements, _, ⟨rfl, rfl⟩, _, _, ⟨hi, rfl, rfl⟩, hd, rfl⟩
      exact ⟨⟨_, hx, by rw [Cell.element?, if_pos ⟨rfl, hi.1⟩, hd]⟩, rfl⟩
    · rintro ⟨⟨fields | ⟨k', elements⟩, hx, hd⟩, rfl⟩
      · contradiction
      · obtain ⟨⟨rfl, hi⟩, hvalue⟩ := Option.ite_none_right_eq_some.1 hd
        have hlt := (List.getElem?_eq_some_iff.1 hvalue).1
        have hlt : i.toInt < elements.length := by omega
        exact ⟨_, _, ⟨hx, rfl⟩, elements, _, ⟨rfl, rfl⟩, _, _, ⟨⟨hi, hlt⟩, rfl, rfl⟩, hvalue, rfl⟩

/-- The variable gets this value, and nothing else changes. -/
structure Becomes (a : Spot) (d : Datum) (σ σ' : Storage) : Prop where
  value : a.value? σ' = some d
  others : ∀ b, b ≠ a → b.value? σ' = b.value? σ
  cells : σ'.cells.map Cell.shape = σ.cells.map Cell.shape
  input : σ'.input = σ.input
  output : σ'.output = σ.output

/-- What a change of one cell does not concern. -/
theorem value?_withCell {x y : Cell} (hx : σ.cells[c]? = some x)
    (hfield : ∀ slot, b = field c slot → y.field? slot = x.field? slot)
    (helement : ∀ k i, b = element k c i → y.element? k i = x.element? k i) :
    b.value? (σ.withCell c y) = b.value? σ := by
  have hc := (List.getElem?_eq_some_iff.1 hx).1
  cases b with
  | frame slot => rfl
  | global slot => rfl
  | field c' slot =>
    by_cases h : c = c'
    · subst h
      rw [value?, value?, hx, Storage.withCell, List.getElem?_set_self hc]
      exact hfield slot rfl
    · rw [value?, value?, Storage.withCell, List.getElem?_set_ne h]
  | element k c' i =>
    by_cases h : c = c'
    · subst h
      rw [value?, value?, hx, Storage.withCell, List.getElem?_set_self hc]
      exact helement k i rfl
    · rw [value?, value?, Storage.withCell, List.getElem?_set_ne h]

theorem becomes_frame (h : slot < σ.locals.length) :
    (frame slot).Becomes d σ { σ with locals := σ.locals.set slot d } where
  value := List.getElem?_set_self h
  others b hb := by
    cases b with
    | frame slot' => exact List.getElem?_set_ne fun heq => hb (congrArg frame heq.symm)
    | _ => rfl
  cells := rfl
  input := rfl
  output := rfl

theorem becomes_global (h : slot < σ.statics.length) :
    (global slot).Becomes d σ { σ with statics := σ.statics.set slot d } where
  value := List.getElem?_set_self h
  others b hb := by
    cases b with
    | global slot' => exact List.getElem?_set_ne fun heq => hb (congrArg global heq.symm)
    | _ => rfl
  cells := rfl
  input := rfl
  output := rfl

theorem becomes_field {fields : List Datum} (hx : σ.cells[c]? = some (.object fields))
    (h : slot < fields.length) :
    (field c slot).Becomes d σ (σ.withCell c (.object (fields.set slot d))) where
  value := by
    rw [value?, Storage.withCell, List.getElem?_set_self (List.getElem?_eq_some_iff.1 hx).1]
    exact List.getElem?_set_self h
  others b hb := by
    refine value?_withCell hx ?_ fun k i _ => rfl
    rintro slot' rfl
    exact List.getElem?_set_ne fun heq => hb (congrArg (field c) heq.symm)
  cells := Storage.map_shape_withCell hx (congrArg (Prod.mk none) List.length_set)
  input := rfl
  output := rfl

theorem becomes_element {elements : List Datum} (hx : σ.cells[c]? = some (.array k elements))
    (hi : 0 ≤ i) (h : i.toInt.toNat < elements.length) :
    (element k c i).Becomes d σ (σ.withCell c (.array k (elements.set i.toInt.toNat d))) where
  value := by
    rw [value?, Storage.withCell, List.getElem?_set_self (List.getElem?_eq_some_iff.1 hx).1]
    exact (if_pos ⟨rfl, hi⟩).trans (List.getElem?_set_self h)
  others b hb := by
    refine value?_withCell hx (fun slot _ => rfl) ?_
    rintro k' i' rfl
    show (if k = k' ∧ 0 ≤ i' then _ else _) = if k = k' ∧ 0 ≤ i' then _ else _
    split_ifs with hk
    · obtain ⟨rfl, hi'⟩ := hk
      have hpos : 0 ≤ i.toInt := Int32.le_iff_toInt_le.1 hi
      have hpos' : 0 ≤ i'.toInt := Int32.le_iff_toInt_le.1 hi'
      refine List.getElem?_set_ne fun heq => hb (congrArg (element k c) (Int32.toInt.inj ?_))
      omega
    · rfl
  cells := Storage.map_shape_withCell hx (congrArg (Prod.mk (some k)) List.length_set)
  input := rfl
  output := rfl

theorem put_field {fields : List Datum} (h : p.storage.cells[c]? = some (.object fields)) :
    (field c slot).put d p =
      .ok ((), { p with storage := p.storage.withCell c (.object (fields.set slot d)) }) :=
  Action.bind_eq_ok.2 ⟨_, _, Action.getCell_eq_ok.2 ⟨h, rfl⟩, Action.bind_eq_ok.2
    ⟨fields, _, Action.fieldsOf_eq_ok.2 ⟨rfl, rfl⟩, rfl⟩⟩

theorem put_element {elements : List Datum} (h : p.storage.cells[c]? = some (.array k elements))
    (hi : 0 ≤ i ∧ i.toInt < elements.length) : (element k c i).put d p =
      .ok ((), { p with storage := p.storage.withCell c (.array k (elements.set i.toInt.toNat d)) }) :=
  Action.bind_eq_ok.2 ⟨_, _, Action.getCell_eq_ok.2 ⟨h, rfl⟩, Action.bind_eq_ok.2 ⟨elements, _,
    Action.elementsOf_eq_ok.2 ⟨rfl, rfl⟩, Action.bind_eq_ok.2 ⟨_, _,
      Action.indexIn_eq_ok.2 ⟨hi, rfl, rfl⟩, rfl⟩⟩⟩

/-- A value may be stored in a variable that was there before. -/
theorem exists_put (d' : Datum) (hvalue : a.value? σ = some d) (h : σ.Persists q.storage) :
    ∃ σ', a.put d' q = .ok ((), { q with storage := σ' }) ∧ a.Becomes d' q.storage σ' := by
  cases a with
  | frame slot =>
    have hlt : slot < q.storage.locals.length := h.locals ▸ (List.getElem?_eq_some_iff.1 hvalue).1
    exact ⟨_, rfl, becomes_frame hlt⟩
  | global slot =>
    have hlt : slot < q.storage.statics.length := h.statics ▸ (List.getElem?_eq_some_iff.1 hvalue).1
    exact ⟨_, rfl, becomes_global hlt⟩
  | field c slot =>
    obtain ⟨fields | ⟨k, elements⟩, hx, hd⟩ := Option.bind_eq_some_iff.1 hvalue
    · obtain ⟨fields', hx', hlength⟩ := h.object hx
      have hlt : slot < fields'.length := hlength ▸ (List.getElem?_eq_some_iff.1 hd).1
      exact ⟨_, put_field hx', becomes_field hx' hlt⟩
    · contradiction
  | element k c i =>
    obtain ⟨fields | ⟨k', elements⟩, hx, hd⟩ := Option.bind_eq_some_iff.1 hvalue
    · contradiction
    · obtain ⟨⟨rfl, hi⟩, hthere⟩ := Option.ite_none_right_eq_some.1 hd
      obtain ⟨elements', hx', hlength⟩ := h.array hx
      have hlt : i.toInt.toNat < elements'.length := hlength ▸ (List.getElem?_eq_some_iff.1 hthere).1
      exact ⟨_, put_element hx' ⟨hi, by omega⟩, becomes_element hx' hi hlt⟩

/-- The number in the variable is replaced by what is computed from it. -/
def update (f : Int32 → Option Int32) (a : Spot) : Action Unit := do
  match ← a.get with
  | .number v => a.put (.number (← Action.want (f v) .division))
  | .reference _ => Action.stop .stuck

end Spot

/-! ### Operators -/

/-- What is assigned, where there are the old value and that of the expression, unless a division is by 0. -/
def Tree.Assigning.result : Assigning → Int32 → Int32 → Option Int32
  | plain, _, y => some y
  | add o, x, y => some (o.apply x y)
  | multiply .times, x, y => some (x * y)
  | multiply .slash, x, y => if y = 0 then none else some (x / y)
  | multiply .percent, x, y => if y = 0 then none else some (x % y)

/-- The instruction of the operator, if there is one. -/
def Tree.Assigning.opcode? : Assigning → Option Opcode
  | plain => none
  | add o => some o.opcode
  | multiply o => some o.opcode

theorem wellFormed_opcode {o : Tree.Assigning} {op : Opcode} (h : o.opcode? = some op) :
    (Item.plain op []).WellFormed := by
  rcases o with _ | (_ | _) | (_ | _ | _)
  · contradiction
  all_goals
    obtain rfl := Option.some.inj h
    exact ⟨rfl, rfl⟩

theorem implements_constant (w : Int32) : Implements code [.constant w] (Action.push (.number w)) :=
  fun _ hlaid => Relation.ReflTransGen.single hlaid.next_constant

/-- The instruction of an operator. -/
theorem implements_operator {o : Tree.Assigning} {op : Opcode} (h : o.opcode? = some op) :
    Implements code [.plain op []] (Action.combine o.result) := by
  rcases o with _ | (_ | _) | (_ | _ | _)
  · contradiction
  all_goals
    obtain rfl := Option.some.inj h
    exact .plain (o := (_, [])) ⟨rfl, .nil⟩ fun _ => rfl

/-! ### Updates -/

namespace Operand

variable {f : Int32 → Int32 → Option Int32} {w : Int32} {r : Process}

/-- What the operand has on the stack leads to the same spot again. -/
theorem spot_address (h : x.spot p = .ok (a, q)) (r : Process) :
    x.spot { r with stack := a.address ++ r.stack } = .ok (a, r) := by
  obtain ⟨x, T⟩ := x
  cases x with
  | frame slot =>
    obtain ⟨rfl, -⟩ := Prod.mk.inj (Except.ok.inj h)
    rfl
  | global slot =>
    obtain ⟨rfl, -⟩ := Prod.mk.inj (Except.ok.inj h)
    rfl
  | field slot =>
    obtain ⟨c, p₁, -, h₂⟩ := Action.bind_eq_ok.1 h
    obtain ⟨rfl, -⟩ := Prod.mk.inj (Except.ok.inj h₂)
    rfl
  | element =>
    obtain ⟨i, p₁, -, h₂⟩ := Action.bind_eq_ok.1 h
    obtain ⟨c, p₂, -, h₃⟩ := Action.bind_eq_ok.1 h₂
    obtain ⟨rfl, -⟩ := Prod.mk.inj (Except.ok.inj h₃)
    rfl
  | constant v => contradiction
  | stack => contradiction
  | method id => contradiction

/-- Combines the value above the old one with it, and stores the result. -/
def finish (x : Operand) (f : Int32 → Int32 → Option Int32) : Action Unit := do
  Action.combine f
  let d ← Action.pop
  (← x.spot).put d

/-- The code behind that of the other number. -/
def finishing (x : Operand) (op : Opcode) : List Item := [.plain op [], .plain x.storer.1 x.storer.2]

theorem implements_finishing {o : Tree.Assigning} {op : Opcode} (hx : x.isVariable) (hfits : x.Fits)
    (h : o.opcode? = some op) : Implements code (x.finishing op) (x.finish o.result) :=
  (implements_operator h).append (implements_storer hx hfits) <|
    .bind .popNumber fun _ => .bind .popNumber fun _ => .bind (.of_looks (.want _ _)) fun _ => .push _

/-- On the old value of a variable and another number. -/
theorem finish_eq (h : x.spot p = .ok (a, q)) (d : Datum) :
    x.finish f { r with stack := .number w :: d :: (a.address ++ r.stack) } =
      match d with
      | .number v => (do a.put (.number (← Action.want (f v w) .division))) r
      | .reference _ => .error .stuck := by
  cases d with
  | reference c => rfl
  | number v =>
    have hspot := spot_address h r
    have hcombine : Action.combine f { r with
        stack := .number w :: .number v :: (a.address ++ r.stack) } = (do
          Action.push (.number (← Action.want (f v w) .division))) { r with
            stack := a.address ++ r.stack } := rfl
    show (Action.combine f _ >>= fun s => (Action.pop >>= fun d => x.spot >>= (·.put d)) s.2) =
      (Action.want (f v w) .division >>= fun u => a.put (.number u)) r
    rw [hcombine]
    rcases f v w with _ | u
    · rfl
    · show (x.spot { r with stack := a.address ++ r.stack } >>= fun s => s.1.put (.number u) s.2) = _
      rw [hspot]
      rfl

theorem fetch_eq (h : x.spot p = .ok (a, q)) : x.fetch p =
    (a.get q).map fun r => ((), { q with stack := r.1 :: (a.address ++ q.stack) }) := by
  have hsame : a.get q = (a.get q).map fun r => (r.1, q) := Action.Looks.get a rfl
  show (x.spot p >>= fun s => s.1.get s.2 >>= fun r => _) = _
  rw [h]
  show (a.get q >>= fun r => _) = _
  rw [hsame]
  rcases a.get q with e | r <;> rfl

theorem fetch_constant : (do
    x.fetch
    Action.push (.number w)
    x.finish f) = (do (← x.spot).update fun v => f v w) := by
  funext p
  show (x.fetch p >>= fun r => (Action.push (.number w) >>= fun _ => x.finish f) r.2) =
    (x.spot p >>= fun r => r.1.update (fun v => f v w) r.2)
  rcases hspot : x.spot p with e | ⟨a, q⟩
  · show ((x.spot p >>= fun s => _) >>= fun r => _) = _
    rw [hspot]
    rfl
  · rw [fetch_eq hspot]
    show _ = (a.get q >>= fun r => _)
    rcases hget : a.get q with e | ⟨d, q'⟩
    · rfl
    · obtain ⟨-, rfl⟩ := Spot.get_eq_ok.1 hget
      refine (finish_eq (r := q') hspot d).trans ?_
      cases d <;> rfl

theorem placeless_fetch (x : Operand) : x.fetch.Placeless :=
  .bind (.spot x) fun a => .bind (.of_looks (.get a)) fun d =>
    .bind (fun _ _ => rfl : a.give.Placeless) fun _ => .push d

/-- The code of an update by a constant. -/
theorem implements_updating {o : Tree.Assigning} {op : Opcode} (hx : x.isVariable) (hfits : x.Fits)
    (h : o.opcode? = some op) (w : Int32) : Implements code (x.fetching ++ ([.constant w] ++ x.finishing op))
      (do (← x.spot).update fun v => o.result v w) := by
  rw [← fetch_constant]
  exact (implements_fetching hx hfits).append
    ((implements_constant w).append (implements_finishing hx hfits h) (.push _)) (placeless_fetch x)

/-- The code that adds 1 to the variable, or takes 1 from it. -/
def increasing (x : Operand) (δ : Int32) : List Item :=
  match x.place with
  | .frame slot => [.plain .inc [(slot : Int), δ.toInt]]
  | _ => x.fetching ++ ([.constant δ] ++ x.finishing .add)

theorem implements_increasing {δ : Int32} (hδ : δ = 1 ∨ δ = -1) (hx : x.isVariable) (hfits : x.Fits) :
    Implements code (x.increasing δ) (do (← x.spot).update fun v => some (v + δ)) := by
  have hplace : Implements code (x.fetching ++ ([.constant δ] ++ x.finishing .add))
      (do (← x.spot).update fun v => some (v + δ)) := implements_updating (o := .add .plus) hx hfits rfl δ
  obtain ⟨x, T⟩ := x
  cases x with
  | frame slot =>
    have hslot : slot ≤ 255 := hfits
    have hstep : Field.signedByte.Holds δ.toInt := by
      rcases hδ with rfl | rfl <;> decide
    refine .plain (o := (.inc, [(slot : Int), δ.toInt]))
      ⟨rfl, .cons (Field.holds_byte (by omega)) (.cons hstep .nil)⟩ fun place => ?_
    show (Action.getLocal slot >>= fun
      | .number v => Action.setLocal slot (.number (v + .ofInt δ.toInt))
      | .reference _ => Action.stop .stuck) = _
    rw [Int32.ofInt_toInt]
    rfl
  | global slot => exact hplace
  | field slot => exact hplace
  | element => exact hplace
  | constant v => contradiction
  | stack => contradiction
  | method id => contradiction

end Operand

/-- What the code of an update does, where the code `ks` gives the other number. -/
structure Compounds (code : List UInt8) (x : Operand) (f : Int32 → Int32 → Option Int32)
    (ks js : List Item) : Prop where
  /-- The variable is looked at before that code. -/
  stops {p : Process} {reason : Stop} (hlaid : Laid code p.place js)
    (hget : (do (← x.spot).get) p = .error reason) : p.Ends code (.error reason)
  /-- In front of that code, the old value is above what the operand has on the stack. -/
  reads {p q : Process} {a : Spot} {d : Datum} (hlaid : Laid code p.place js) (hspot : x.spot p = .ok (a, q))
    (hvalue : a.value? q.storage = some d) : p.Leads code { q with
      place := p.place + codeSize x.fetching, stack := d :: (a.address ++ q.stack) }
  /-- The result is stored, and nothing else is changed behind that code. -/
  stores {p q : Process} {a : Spot} {v w r : Int32} {σ : Storage} (hlaid : Laid code p.place js)
    (hspot : x.spot p = .ok (a, q)) (hvalue : a.value? q.storage = some (.number v))
    (hks : Delivers code ks q.storage [.number w] σ) (hr : f v w = some r) :
    ∃ σ', a.Becomes (.number r) σ σ' ∧
      p.Leads code { q with place := p.place + codeSize js, storage := σ' }
  /-- A division by zero stops behind that code. -/
  divides {p q : Process} {a : Spot} {v w : Int32} {σ : Storage} (hlaid : Laid code p.place js)
    (hspot : x.spot p = .ok (a, q)) (hvalue : a.value? q.storage = some (.number v))
    (hks : Delivers code ks q.storage [.number w] σ) (hr : f v w = none) :
    p.Ends code (.error .division)

namespace Operand

/-- Run from a process, the code that loads the variable for an update. -/
theorem ends_fetching (hx : x.isVariable) (hfits : x.Fits) (hlaid : Laid code p.place x.fetching) :
    p.Ends code ((x.fetch p).map fun r => { r.2 with place := p.place + codeSize x.fetching }) := by
  have hends := implements_fetching hx hfits p hlaid
  rw [placeless_fetch] at hends
  rcases hp : x.fetch p with e | r <;> rw [hp] at hends <;> exact hends

theorem compounds {o : Tree.Assigning} {op : Opcode} (hx : x.isVariable) (hfits : x.Fits)
    (h : o.opcode? = some op) :
    Compounds code x o.result ks (x.fetching ++ (ks ++ x.finishing op)) := by
  have hreads : ∀ {p q : Process} {a : Spot} {d : Datum},
      Laid code p.place (x.fetching ++ (ks ++ x.finishing op)) → x.spot p = .ok (a, q) →
      a.value? q.storage = some d → p.Leads code { q with
        place := p.place + codeSize x.fetching, stack := d :: (a.address ++ q.stack) } := by
    intro p q a d hlaid hspot hvalue
    have hends := ends_fetching hx hfits hlaid.left
    rw [fetch_eq hspot, Spot.get_eq_ok.2 ⟨hvalue, rfl⟩] at hends
    exact hends
  have hfinishes : ∀ {p q : Process} {a : Spot} {v w : Int32} {σ : Storage},
      Laid code p.place (x.fetching ++ (ks ++ x.finishing op)) → x.spot p = .ok (a, q) →
      a.value? q.storage = some (.number v) → Delivers code ks q.storage [.number w] σ →
      p.Ends code (Except.map (·.2) ((do a.put (.number (← Action.want (o.result v w) .division)))
        { q with place := p.place + codeSize (x.fetching ++ (ks ++ x.finishing op)), storage := σ })) := by
    intro p q a v w σ hlaid hspot hvalue hks
    have hother := hks.leads hlaid.right.left (.number v :: (a.address ++ q.stack)) q.callers
    have hends := implements_finishing hx hfits h ⟨_, .number w :: .number v :: (a.address ++ q.stack),
      q.callers, σ⟩ hlaid.right.right
    have hfinish := finish_eq (f := o.result) (w := w) hspot (.number v)
      (r := { q with place := p.place + codeSize (x.fetching ++ (ks ++ x.finishing op)), storage := σ })
    simp only [codeSize_append, ← Nat.add_assoc] at hfinish ⊢
    rw [hfinish] at hends
    exact Process.Leads.ends (Relation.ReflTransGen.trans (hreads hlaid hspot hvalue) hother) hends
  refine ⟨fun {p e} hlaid hget => ?_, hreads, fun {p q a v w r σ} hlaid hspot hvalue hks hr => ?_,
    fun {p q a v w σ} hlaid hspot hvalue hks hr => ?_⟩
  · have hfetch : x.fetch p = .error e := by
      change (x.spot p >>= fun s => s.1.get s.2) = _ at hget
      rcases hspot : x.spot p with e' | ⟨a, q⟩ <;> rw [hspot] at hget
      · show (x.spot p >>= fun s => _) = _
        rw [hspot]
        exact congrArg Except.error (Except.error.inj hget)
      · change a.get q = _ at hget
        rw [fetch_eq hspot, hget]
        rfl
    have hends := ends_fetching hx hfits hlaid.left
    rw [hfetch] at hends
    exact hends
  · have hends := hfinishes hlaid hspot hvalue hks
    rw [hr] at hends
    -- whatever the code of the other number calls, the variable is still there
    have hpersists : q.storage.Persists σ :=
      (hks _ hlaid.right.left).persists.storage rfl rfl
    obtain ⟨σ', hput, hbecomes⟩ := Spot.exists_put (.number r) (q := { q with
      place := p.place + codeSize (x.fetching ++ (ks ++ x.finishing op)), storage := σ }) hvalue hpersists
    refine ⟨σ', hbecomes, ?_⟩
    have hrun : ((do a.put (.number (← Action.want (some r) .division)) : Action Unit) { q with
        place := p.place + codeSize (x.fetching ++ (ks ++ x.finishing op)), storage := σ }) = _ := hput
    rw [hrun] at hends
    exact hends
  · have hends := hfinishes hlaid hspot hvalue hks
    rw [hr] at hends
    exact hends

end Operand

end MicroJava
