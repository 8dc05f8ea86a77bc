import MicroJava.Proofs.Packing

/-!
# Variables on the machine

Where a variable is (`Spot`) is known once what its operand has on the stack is taken from there
(`Operand.spot`). The instructions that load the operand and that store into it then read and write what
is in this spot. What a listing does is an action, like what an instruction does (`Implements`).
-/

namespace MicroJava

open Process

/-- Where the value of a variable is. -/
inductive Spot where
  | frame (slot : Nat)
  | global (slot : Nat)
  | field (cell slot : Nat)
  | element (characters : Bool) (cell : Nat) (index : Int32)

namespace Spot

open Action

/-- The value of the variable. -/
def get : Spot → Action Datum
  | frame slot => getLocal slot
  | global slot => getStatic slot
  | field c slot => do want (← fieldsOf (← getCell c))[slot]? .stuck
  | element k c i => do
    let elements ← elementsOf k (← getCell c)
    want elements[← indexIn elements i]? .index

/-- The value becomes that of the variable. -/
def put (d : Datum) : Spot → Action Unit
  | frame slot => setLocal slot d
  | global slot => setStatic slot d
  | field c slot => do
    let fields ← fieldsOf (← getCell c)
    setCell c (.object (fields.set slot d))
  | element k c i => do
    let elements ← elementsOf k (← getCell c)
    setCell c (.array k (elements.set (← indexIn elements i) d))

/-- What an operand has on the stack for the spot, the top first. -/
def address : Spot → List Datum
  | frame _ | global _ => []
  | field c _ => [.reference c]
  | element _ c i => [.number i, .reference c]

def give (a : Spot) : Action Unit := fun p => .ok ((), { p with stack := a.address ++ p.stack })

end Spot

namespace Operand

open Action Emission

variable (x : Operand)

/-- Takes from the stack what the operand has there. -/
def spot : Action Spot :=
  match x.place with
  | .frame slot => return .frame slot
  | .global slot => return .global slot
  | .field slot => do return .field (← popCell) slot
  | .element => do
    let i ← popNumber
    return .element (decide (x.type = .char)) (← popCell) i
  | _ => stop .stuck

/-- The instruction that loads a variable. -/
def loader : Order :=
  match x.place with
  | .frame slot => frameLoadCode slot
  | .global slot => (.getStatic, [(slot : Int)])
  | .field slot => (.getField, [(slot : Int)])
  | _ => (elementLoad x.type, [])

/-- The instruction that stores into a variable. -/
def storer : Order :=
  match x.place with
  | .frame slot => frameStoreCode slot
  | .global slot => (.putStatic, [(slot : Int)])
  | .field slot => (.putField, [(slot : Int)])
  | _ => (elementStore x.type, [])

/-- The operand is a variable, whose slot can be written in two bytes. -/
def Addressable (x : Operand) : Prop :=
  match x.place with
  | .frame slot | .global slot | .field slot => slot < 65536
  | .element => True
  | _ => False

end Operand

theorem Operand.execute_loader {x : Operand} (hx : x.isVariable) {place : Nat} :
    Action.execute ⟨place, x.loader.1, x.loader.2⟩ = (do Action.push (← (← x.spot).get)) := by
  obtain ⟨x, T⟩ := x
  cases x with
  | frame slot =>
    rcases slot with _ | _ | _ | _ | slot
    all_goals rfl
  | global slot => rfl
  | field slot => simp [loader, spot, Spot.get, Action.execute, Action.loadField]
  | element =>
    by_cases hT : T = .char <;>
      simp [loader, spot, Spot.get, Action.execute, Action.loadElement, Emission.elementLoad, hT]
  | constant v => contradiction
  | stack => contradiction
  | method id => contradiction

theorem Operand.execute_storer {x : Operand} (hx : x.isVariable) {place : Nat} :
    Action.execute ⟨place, x.storer.1, x.storer.2⟩ = (do
      let d ← Action.pop
      (← x.spot).put d) := by
  obtain ⟨x, T⟩ := x
  cases x with
  | frame slot =>
    rcases slot with _ | _ | _ | _ | slot
    all_goals rfl
  | global slot => rfl
  | field slot => simp [storer, spot, Spot.put, Action.execute, Action.storeField]
  | element =>
    by_cases hT : T = .char <;>
      simp [storer, spot, Spot.put, Action.execute, Action.storeElement, Emission.elementStore, hT]
  | constant v => contradiction
  | stack => contradiction
  | method id => contradiction

namespace Operand.Addressable

variable {x : Operand}

theorem isVariable (h : x.Addressable) : x.isVariable := by
  obtain ⟨x, T⟩ := x
  cases x with
  | constant v => contradiction
  | stack => contradiction
  | method id => contradiction
  | _ => rfl

theorem fits_loader (h : x.Addressable) : x.loader.Fits := by
  obtain ⟨x, T⟩ := x
  cases x with
  | frame slot =>
    have hslots : ∀ s ∈ [slot], s < 65536 := fun s hs => List.mem_singleton.1 hs ▸ h
    exact (Computes.frame slot).fits hslots _ (List.mem_singleton_self _)
  | global slot => exact ⟨rfl, .cons (Field.holds_short h) .nil⟩
  | field slot => exact ⟨rfl, .cons (Field.holds_short h) .nil⟩
  | element =>
    unfold loader Emission.elementLoad
    dsimp only
    split <;> exact ⟨rfl, .nil⟩
  | _ => contradiction

theorem fits_storer (h : x.Addressable) : x.storer.Fits := by
  obtain ⟨x, T⟩ := x
  cases x with
  | frame slot =>
    unfold storer Emission.frameStoreCode
    dsimp only
    split
    case h_5 => exact ⟨rfl, .cons (Field.holds_short h) .nil⟩
    all_goals exact ⟨rfl, .nil⟩
  | global slot => exact ⟨rfl, .cons (Field.holds_short h) .nil⟩
  | field slot => exact ⟨rfl, .cons (Field.holds_short h) .nil⟩
  | element =>
    unfold storer Emission.elementStore
    dsimp only
    split <;> exact ⟨rfl, .nil⟩
  | _ => contradiction

end Operand.Addressable

/-! ### Actions that only look, and actions that do not depend on the address -/

namespace Action

variable {α β : Type}

/-- The action only looks at what is stored. -/
def Looks (m : Action α) : Prop :=
  ∀ ⦃p q : Process⦄, q.storage = p.storage → m q = (m p).map fun r => (r.1, q)

/-- The action neither depends on the address nor changes it. -/
def Placeless (m : Action α) : Prop :=
  ∀ (p : Process) (place : Nat), m { p with place } = (m p).map fun r => (r.1, { r.2 with place })

namespace Looks

variable {m : Action α} {f : α → Action β}

theorem pure (a : α) : Looks (Pure.pure a : Action α) := fun _ _ _ => rfl

theorem stop (reason : Stop) : Looks (Action.stop reason : Action α) := fun _ _ _ => rfl

theorem want (x : Option α) (reason : Stop) : Looks (Action.want x reason) := by
  cases x with
  | none => exact stop reason
  | some a => exact pure a

theorem bind (hm : Looks m) (hf : ∀ a, Looks (f a)) : Looks (m >>= f) := by
  intro p q h
  show (m q >>= fun r => f r.1 r.2) = Except.map _ (m p >>= fun r => f r.1 r.2)
  rw [hm h, hm (rfl : p.storage = p.storage)]
  rcases m p with e | ⟨a, _⟩
  · rfl
  · exact hf a h

theorem getLocal (slot : Nat) : Looks (Action.getLocal slot) := by
  intro p q h
  rw [Action.getLocal, Action.getLocal, h]
  exact want _ _ h

theorem getStatic (slot : Nat) : Looks (Action.getStatic slot) := by
  intro p q h
  rw [Action.getStatic, Action.getStatic, h]
  exact want _ _ h

theorem getCell (c : Nat) : Looks (Action.getCell c) := by
  intro p q h
  rw [Action.getCell, Action.getCell, h]
  exact want _ _ h

theorem fieldsOf : ∀ x : Cell, Looks (Action.fieldsOf x)
  | .object _ => pure _
  | .array _ _ => stop _

theorem elementsOf (k : Bool) : ∀ x : Cell, Looks (Action.elementsOf k x)
  | .object _ => stop _
  | .array k' elements => by
    show Looks (if k' = k then Pure.pure elements else Action.stop .stuck)
    split
    · exact pure _
    · exact stop _

theorem indexIn (elements : List Datum) (i : Int32) : Looks (Action.indexIn elements i) := by
  unfold Action.indexIn
  split
  · exact pure _
  · exact stop _

/-- The value of a variable is looked at. -/
theorem get (a : Spot) : Looks a.get := by
  cases a with
  | frame slot => exact getLocal slot
  | global slot => exact getStatic slot
  | field c slot => exact bind (getCell c) fun _ => bind (fieldsOf _) fun _ => want _ _
  | element k c i =>
    exact bind (getCell c) fun _ => bind (elementsOf k _) fun _ => bind (indexIn _ _) fun _ => want _ _

end Looks

namespace Placeless

variable {m : Action α} {f : α → Action β}

theorem bind (hm : Placeless m) (hf : ∀ a, Placeless (f a)) : Placeless (m >>= f) := by
  intro p place
  show (m { p with place } >>= fun r => f r.1 r.2) = Except.map _ (m p >>= fun r => f r.1 r.2)
  rw [hm p place]
  rcases m p with e | ⟨a, p₁⟩
  · rfl
  · exact hf a p₁ place

theorem of_looks (h : Looks m) : Placeless m := by
  intro p place
  have hsame : m p = (m p).map fun r => (r.1, p) := h rfl
  rw [@h p { p with place } rfl, hsame]
  rcases m p with e | r <;> rfl

theorem push (d : Datum) : Placeless (Action.push d) := fun _ _ => rfl

theorem pop : Placeless Action.pop := by
  rintro ⟨_, _ | ⟨d, S⟩, _, _⟩ place <;> rfl

theorem popNumber : Placeless Action.popNumber := bind pop fun
  | .number v => .of_looks (.pure v)
  | .reference _ => .of_looks (.stop _)

theorem popCell : Placeless Action.popCell := bind pop fun
  | .number _ => .of_looks (.stop _)
  | .reference c => .of_looks (.pure c)

theorem spot (x : Operand) : Placeless x.spot := by
  unfold Operand.spot
  split
  · exact .of_looks (.pure _)
  · exact .of_looks (.pure _)
  · exact bind popCell fun _ => .of_looks (.pure _)
  · exact bind popNumber fun _ => bind popCell fun _ => .of_looks (.pure _)
  · exact .of_looks (.stop _)

end Placeless

end Action

/-! ### What listings do -/

/-- The process leads to the other one, or stops for a reason. -/
def Process.Ends (code : List UInt8) (p : Process) : Except Stop Process → Prop
  | .ok q => p.Leads code q
  | .error reason => ∃ q, p.Leads code q ∧ q.next code = .error reason

/-- Wherever the listing is in the program, a process in front of it does the action and is then behind it. -/
def Implements (code : List UInt8) (js : List Item) (m : Action Unit) : Prop :=
  ∀ p : Process, Laid code p.place js →
    p.Ends code ((m { p with place := p.place + codeSize js }).map (·.2))

variable {code : List UInt8} {js js' : List Item} {m m' : Action Unit} {p q : Process}

theorem Process.Leads.ends {r : Except Stop Process} (h : p.Leads code q) (h' : q.Ends code r) :
    p.Ends code r := by
  cases r with
  | ok q' => exact Relation.ReflTransGen.trans h h'
  | error reason =>
    obtain ⟨q', hleads, hnext⟩ := h'
    exact ⟨q', Relation.ReflTransGen.trans h hleads, hnext⟩

namespace Implements

theorem plain {o : Order} (ho : o.Fits) (hm : ∀ place, Action.execute ⟨place, o.1, o.2⟩ = m) :
    Implements code [.plain o.1 o.2] m := by
  intro p hlaid
  have hnext : p.next code = (m { p with place := p.place + o.1.size }).map (·.2) :=
    hm p.place ▸ hlaid.next_plain ho
  have hsize : codeSize [Item.plain o.1 o.2] = o.1.size := by simp [Item.size, Item.opcode]
  rw [hsize]
  generalize (m { p with place := p.place + o.1.size }).map (·.2) = r at hnext ⊢
  cases r with
  | error e => exact ⟨p, .refl, hnext⟩
  | ok q => exact Relation.ReflTransGen.single hnext

theorem nil : Implements code [] (return ()) := fun _ _ => Relation.ReflTransGen.refl

/-- One listing does its action behind the other one. -/
theorem append (h : Implements code js m) (h' : Implements code js' m') (hm : m.Placeless) :
    Implements code (js ++ js') (do m; m') := by
  intro p hlaid
  have hends := h p hlaid.left
  rw [codeSize_append, ← Nat.add_assoc]
  show Process.Ends code p (Except.map _
    (m { p with place := p.place + codeSize js + codeSize js' } >>= fun r => m' r.2))
  rw [hm] at hends ⊢
  generalize m p = r at hends ⊢
  rcases r with e | ⟨u, q⟩
  · exact hends
  · exact Process.Leads.ends hends (h' { q with place := p.place + codeSize js } hlaid.right)

end Implements

/-! ### Loading and storing -/

/-- A value that is looked at may be loaded above what led to it. -/
theorem Spot.get_give (a : Spot) (p : Process) :
    (do Action.push (← a.get)) { p with stack := a.address ++ p.stack } = (do
      let d ← a.get
      a.give
      Action.push d) p := by
  have h₁ := Action.Looks.get a (p := p) (q := { p with stack := a.address ++ p.stack }) rfl
  have h₂ := Action.Looks.get a (rfl : p.storage = p.storage)
  show (a.get _ >>= fun r => Action.push r.1 r.2) = (a.get p >>= fun r => _)
  rw [h₁, h₂]
  rcases a.get p with e | ⟨d, _⟩ <;> rfl

namespace Operand

variable {x : Operand}

/-- The operands of the instructions that load the variable and store into it fit their fields. -/
def Fits (x : Operand) : Prop :=
  match x.place with
  | .frame slot => slot ≤ 255
  | .global slot | .field slot => slot < 65536
  | _ => True

/-- Takes from the stack what the operand has there, and puts it there again, below the value. -/
def fetch (x : Operand) : Action Unit := do
  let a ← x.spot
  let d ← a.get
  a.give
  Action.push d

/-- Doubles what the operand has on the stack. -/
def keep (x : Operand) : Action Unit :=
  match x.place with
  | .field _ => Action.execute ⟨0, .dup, []⟩
  | .element => Action.execute ⟨0, .dup2, []⟩
  | _ => return ()

/-- The code that doubles what the operand of a variable has on the stack. -/
def keeping (x : Operand) : List Item :=
  match x.place with
  | .field _ => [.plain .dup []]
  | .element => [.plain .dup2 []]
  | _ => []

/-- The code that loads the variable for an update. -/
def fetching (x : Operand) : List Item := x.keeping ++ [.plain x.loader.1 x.loader.2]

theorem Fits.addressable (h : x.Fits) (hx : x.isVariable) : x.Addressable := by
  obtain ⟨x, T⟩ := x
  cases x with
  | frame slot => exact Nat.lt_of_le_of_lt h (by decide)
  | global slot => exact h
  | field slot => exact h
  | element => trivial
  | _ => contradiction

theorem implements_loader (hx : x.isVariable) (h : x.Fits) :
    Implements code [.plain x.loader.1 x.loader.2] (do Action.push (← (← x.spot).get)) :=
  .plain (h.addressable hx).fits_loader fun _ => execute_loader hx

theorem implements_storer (hx : x.isVariable) (h : x.Fits) :
    Implements code [.plain x.storer.1 x.storer.2] (do
      let d ← Action.pop
      (← x.spot).put d) :=
  .plain (h.addressable hx).fits_storer fun _ => execute_storer hx

theorem implements_keeping (x : Operand) : Implements code x.keeping x.keep := by
  obtain ⟨x, T⟩ := x
  cases x with
  | field slot => exact .plain (o := (.dup, [])) ⟨rfl, .nil⟩ fun _ => rfl
  | element => exact .plain (o := (.dup2, [])) ⟨rfl, .nil⟩ fun _ => rfl
  | _ => exact .nil

theorem placeless_keep (x : Operand) : x.keep.Placeless := by
  open Action.Placeless in
  obtain ⟨x, T⟩ := x
  cases x with
  | field slot => exact bind pop fun _ => bind (push _) fun _ => push _
  | element =>
    exact bind pop fun _ => bind pop fun _ => bind (push _) fun _ => bind (push _) fun _ =>
      bind (push _) fun _ => push _
  | _ => exact .of_looks (.pure _)

theorem keep_fetch (hx : x.isVariable) : (do
    x.keep
    Action.push (← (← x.spot).get)) = x.fetch := by
  funext p
  obtain ⟨x, T⟩ := x
  obtain ⟨place, stack, callers, σ⟩ := p
  cases x with
  | frame slot => exact Spot.get_give (.frame slot) ⟨place, stack, callers, σ⟩
  | global slot => exact Spot.get_give (.global slot) ⟨place, stack, callers, σ⟩
  | field slot =>
    rcases stack with _ | ⟨v | c, S⟩
    · rfl
    · rfl
    · exact Spot.get_give (.field c slot) ⟨place, S, callers, σ⟩
  | element =>
    rcases stack with _ | ⟨i | c, _ | ⟨v | c, S⟩⟩
    · rfl
    · rfl
    · rfl
    · exact Spot.get_give (.element (decide (T = .char)) c i) ⟨place, S, callers, σ⟩
    · rfl
    · rfl
    · rfl
  | constant v => contradiction
  | stack => contradiction
  | method id => contradiction

theorem implements_fetching (hx : x.isVariable) (h : x.Fits) : Implements code x.fetching x.fetch := by
  rw [← keep_fetch hx]
  exact (implements_keeping x).append (implements_loader hx h) (placeless_keep x)

end Operand

end MicroJava
