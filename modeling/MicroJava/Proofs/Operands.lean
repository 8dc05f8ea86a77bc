import MicroJava.Production.Statement
import MicroJava.Proofs.Allotting
import MicroJava.Proofs.Layout

/-!
# The operands of a block

Every instruction that a block asks for has operands within its bounds (`Bounds.Allows`): a slot of the
frame is one of the variables of the method, that of a global variable is one of the program, and that of
a field is one of a class, whose number of fields is the size of its objects. `Asks c B m Q` says that a
run of `m` asks for such instructions only, and that its result is as `Q` says; it is composed like the
productions themselves. The code is that of the instructions that were asked for (`Assembly.Echoes`).
-/

namespace MicroJava

/-- The slot of the frame that an instruction uses. -/
def Opcode.frameSlot? : Opcode → List Int → Option Int
  | .load0, _ | .store0, _ => some 0
  | .load1, _ | .store1, _ => some 1
  | .load2, _ | .store2, _ => some 2
  | .load3, _ | .store3, _ => some 3
  | .load, slot :: _ | .store, slot :: _ | .inc, slot :: _ => some slot
  | _, _ => none

theorem Emission.frameSlot?_frameLoadCode (slot : Nat) :
    (frameLoadCode slot).1.frameSlot? (frameLoadCode slot).2 = some (slot : Int) := by
  unfold frameLoadCode
  split <;> rfl

theorem Emission.frameSlot?_frameStoreCode (slot : Nat) :
    (frameStoreCode slot).1.frameSlot? (frameStoreCode slot).2 = some (slot : Int) := by
  unfold frameStoreCode
  split <;> rfl

/-- The instruction has no operands, or leaves the distance that is its operand to be written later, and
it uses no slot of the frame. -/
def Opcode.isBare (op : Opcode) : Bool :=
  (op.frameSlot? []).isNone && (op.fields.isEmpty || op.isRelative)

/-! ### Code and what was asked for -/

/-- The instruction that was asked for. -/
def Item.asked : Item → Opcode × List Int
  | .plain op operands => (op, operands)
  | .jump op _ => (op, [])
  | .call _ => (.call, [])

/-- The code is a listing of the instructions that were asked for. -/
def Assembly.Echoes (a : Assembly) : Prop :=
  ∃ is, Lays a is ∧ is.map Item.asked = a.asked.reverse

namespace Assembly.Echoes

open Emission

variable {a a' : Assembly}

theorem emit (h : a.Echoes) {op : Opcode} {operands : List Int} (hrelative : op.isRelative = false)
    (hlength : operands.length = op.fields.length) : (a.emit op operands).Echoes := by
  obtain ⟨is, hlays, his⟩ := h
  refine ⟨_, hlays.emit ⟨hrelative, hlength⟩, ?_⟩
  simp [Assembly.emit, Item.asked, his]

theorem newLabel (h : a.Echoes) : a.newLabel.2.Echoes := by
  obtain ⟨is, hlays, his⟩ := h
  exact ⟨is, hlays.newLabel, his⟩

theorem define (h : a.Echoes) {l : Label} (hs : Succeeds (Emission.define l) a () a') : a'.Echoes := by
  obtain ⟨is, hlays, his⟩ := h
  exact ⟨is, (hlays.define hs).1, by rw [(kept_define hs).2.1, his]⟩

/-- The code and the labels alone decide. -/
theorem withDataSize (h : a.Echoes) (dataSize : Nat) (entry : Option Nat) :
    Echoes { a with dataSize, entry } := by
  obtain ⟨is, hlays, his⟩ := h
  exact ⟨is, ⟨hlays.code, hlays.wellFormed, hlays.pending, hlays.known, hlays.fit⟩, his⟩

end Assembly.Echoes

/-! ### Bounds -/

/-- How far the operands of a block may go. -/
structure Bounds where
  /-- The size of the frame. -/
  slots : Nat
  globals : Nat
  /-- The number of fields of a class. -/
  size : TypeId → Nat

namespace Bounds

/-- The slot of the place is within the bounds. -/
def Places (B : Bounds) : Place → Prop
  | .frame slot => slot < B.slots
  | .global slot => slot < B.globals
  | .field slot => ∃ t, slot < B.size t
  | _ => True

/-- The instruction may be asked for in a block. -/
inductive Allows (B : Bounds) : Opcode → List Int → Prop where
  | bare {op : Opcode} : op.isBare → Allows B op []
  | const (v : Int32) : Allows B .const [v.toInt]
  | newArray {kind : Int} : kind = 0 ∨ kind = 1 → Allows B .newArray [kind]
  | trap : Allows B .trap [1]
  | load {slot : Nat} : slot < B.slots →
    Allows B (Emission.frameLoadCode slot).1 (Emission.frameLoadCode slot).2
  | store {slot : Nat} : slot < B.slots →
    Allows B (Emission.frameStoreCode slot).1 (Emission.frameStoreCode slot).2
  | inc {slot : Nat} {step : Int} : slot < B.slots → step = 1 ∨ step = -1 →
    Allows B .inc [(slot : Int), step]
  | static {op : Opcode} {slot : Nat} : op = .getStatic ∨ op = .putStatic → slot < B.globals →
    Allows B op [(slot : Int)]
  | field {op : Opcode} {t : TypeId} {slot : Nat} : op = .getField ∨ op = .putField →
    slot < B.size t → Allows B op [(slot : Int)]
  | newObject (t : TypeId) : Allows B .newObject [(B.size t : Int)]

variable {B : Bounds}

theorem Allows.constantCode (v : Int32) :
    B.Allows (Emission.constantCode v).1 (Emission.constantCode v).2 := by
  unfold Emission.constantCode
  repeat' split
  all_goals first | exact .bare rfl | exact .const v

theorem Allows.elementLoad (t : TypeId) : B.Allows (Emission.elementLoad t) [] := by
  unfold Emission.elementLoad
  split <;> exact .bare rfl

theorem Allows.elementStore (t : TypeId) : B.Allows (Emission.elementStore t) [] := by
  unfold Emission.elementStore
  split <;> exact .bare rfl

/-- What is no jump or call has all its operands. -/
theorem Allows.length {op : Opcode} {operands : List Int} (h : B.Allows op operands)
    (hop : op.isRelative = false) : operands.length = op.fields.length := by
  cases h with
  | bare hbare =>
    have hempty : op.fields.isEmpty := by simpa [Opcode.isBare, hop] using (Bool.and_eq_true_iff.1 hbare).2
    simp [List.isEmpty_iff.1 hempty]
  | load hslot => unfold Emission.frameLoadCode; split <;> rfl
  | store hslot => unfold Emission.frameStoreCode; split <;> rfl
  | static hop' hslot => rcases hop' with rfl | rfl <;> rfl
  | field hop' hslot => rcases hop' with rfl | rfl <;> rfl
  | _ => rfl

/-- The table has the variables and fields that the bounds are about. -/
structure Covers (B : Bounds) (t : SymbolTable) : Prop where
  names : ∀ name id slot level, t.lookup? name = some id → t.slotAt? id = some (slot, level) →
    if level = SymbolTable.programLevel then slot < B.globals else slot < B.slots
  fields : ∀ ty i id, (t.types.fields ty)[i]? = some id → ∃ level, t.slotAt? id = some (i, level)
  size : ∀ ty, B.size ty = (t.types.fields ty).length

theorem Covers.arrayOf {t : SymbolTable} (h : B.Covers t) (element : TypeId) :
    B.Covers (t.arrayOf element).2 := by
  have hfields : ∀ ty, (t.arrayOf element).2.types.fields ty = t.types.fields ty :=
    fun ty => t.types.fields_push (d := .array element) rfl ty
  refine ⟨h.names, fun ty i id hid => ?_, fun ty => by rw [hfields, h.size]⟩
  rw [hfields] at hid
  exact h.fields ty i id hid

/-- Instructions within the bounds were asked for, and the code is theirs. -/
structure Grows (B : Bounds) (a a' : Assembly) : Prop where
  asked : ∃ xs, a'.asked = xs ++ a.asked ∧ ∀ x ∈ xs, B.Allows x.1 x.2
  echoes : a.Echoes → a'.Echoes
  dataSize : a'.dataSize = a.dataSize

namespace Grows

open Emission

variable {a a₁ a' : Assembly}

theorem refl (a : Assembly) : B.Grows a a := ⟨⟨[], rfl, by simp⟩, id, rfl⟩

theorem trans (h : B.Grows a a₁) (h' : B.Grows a₁ a') : B.Grows a a' := by
  obtain ⟨xs, hxs, hall⟩ := h.asked
  obtain ⟨ys, hys, hall'⟩ := h'.asked
  refine ⟨⟨ys ++ xs, by rw [hys, hxs, List.append_assoc], fun x hx => ?_⟩, h'.echoes ∘ h.echoes,
    h'.dataSize.trans h.dataSize⟩
  exact (List.mem_append.1 hx).elim (hall' x) (hall x)

theorem emit {op : Opcode} {operands : List Int} (h : B.Allows op operands)
    (hop : op.isRelative = false) : B.Grows a (a.emit op operands) :=
  ⟨⟨[(op, operands)], rfl, by simpa using h⟩, fun ha => ha.emit hop (h.length hop), rfl⟩

theorem newLabel : B.Grows a a.newLabel.2 := ⟨⟨[], rfl, by simp⟩, fun ha => ha.newLabel, rfl⟩

theorem define {l : Label} (hs : Succeeds (Emission.define l) a () a') : B.Grows a a' :=
  ⟨⟨[], by rw [(kept_define hs).2.1, List.nil_append], by simp⟩, fun ha => ha.define hs,
    (kept_define hs).2.2⟩

theorem jump {op : Opcode} {l : Label} (hop : op.isJump)
    (hs : Succeeds (do Emission.emit op; Emission.reference l) a () a') : B.Grows a a' := by
  have hkept : a'.asked = (op, []) :: a.asked ∧ a'.dataSize = a.dataSize := by
    simp only [succeeds_bind, succeeds_emit] at hs
    obtain ⟨_, _, rfl, hs⟩ := hs
    exact (kept_reference hs).2.2
  have hbare : op.isBare := by cases op <;> first | rfl | exact absurd hop (by decide)
  refine ⟨⟨[(op, [])], hkept.1, by simpa using .bare hbare⟩, fun ⟨is, hlays, his⟩ => ?_, hkept.2⟩
  refine ⟨_, (hlays.jump hop hs).1, ?_⟩
  simp [his, hkept.1, Item.asked]

theorem call {target : Nat} (hs : Succeeds (Emission.call target) a () a') : B.Grows a a' := by
  have hkept : a'.asked = (.call, []) :: a.asked ∧ a'.dataSize = a.dataSize := by
    obtain ⟨-, rfl⟩ := succeeds_call.1 hs
    exact ⟨rfl, rfl⟩
  refine ⟨⟨[(.call, [])], hkept.1, by simpa using .bare rfl⟩, fun ⟨is, hlays, his⟩ => ?_, hkept.2⟩
  refine ⟨_, (hlays.call hs).1, ?_⟩
  simp [his, hkept.1, Item.asked]

end Grows

end Bounds

/-! ### Emissions -/

/-- Wherever the emission starts, it asks for instructions within the bounds, whether it fails or not. -/
def Orders (B : Bounds) {ε α : Type} (e : Emission ε α) : Prop :=
  ∀ a, B.Grows a (e.outcome a).2

namespace Orders

open Emission Bounds

variable {B : Bounds} {ε α β : Type}

theorem pure (x : α) : Orders B (pure x : Emission ε α) := fun a => .refl a

theorem throw (p : ε) : Orders B (throw p : Emission ε α) := fun a => .refl a

theorem bind {e : Emission ε α} {f : α → Emission ε β} (he : Orders B e)
    (hf : ∀ x, Orders B (f x)) : Orders B (e >>= f) := by
  intro a
  have ha := he a
  rw [outcome_bind]
  rcases h : outcome e a with ⟨p | x, a₁⟩
  · rwa [h] at ha
  · rw [h] at ha
    exact ha.trans (hf x a₁)

theorem emit {op : Opcode} {operands : List Int} (h : B.Allows op operands)
    (hop : op.isRelative = false) : Orders B (emit op operands : Emission ε Unit) :=
  fun _ => .emit h hop

theorem bare {op : Opcode} (h : (op.isBare && !op.isRelative) = true) :
    Orders B (Emission.emit op : Emission ε Unit) := by
  simp only [Bool.and_eq_true, Bool.not_eq_true'] at h
  exact .emit (.bare h.1) h.2

theorem constant (v : Int32) : Orders B (constant v : Emission ε Unit) := by
  refine .emit (.constantCode v) ?_
  unfold constantCode
  repeat' split
  all_goals rfl

variable {x : Operand}

theorem load (hx : B.Places x.place) : Orders B (load x) := by
  obtain ⟨place, type⟩ := x
  cases place with
  | constant v => exact .constant v
  | frame slot =>
    refine .emit (.load hx) ?_
    unfold frameLoadCode
    split <;> rfl
  | global slot => exact .emit (.static (.inl rfl) hx) rfl
  | stack => exact .pure ()
  | field slot =>
    obtain ⟨t, hslot⟩ := hx
    exact .emit (.field (.inl rfl) hslot) rfl
  | element =>
    refine .emit (.elementLoad type) ?_
    unfold elementLoad
    split <;> rfl
  | method id => exact .throw _

theorem storeElement (t : TypeId) : Orders B (storeElement t : Emission ε Unit) := by
  refine .emit (.elementStore t) ?_
  unfold elementStore
  split <;> rfl

theorem store (hx : B.Places x.place) : Orders B (store x) := by
  obtain ⟨place, type⟩ := x
  cases place with
  | frame slot =>
    refine .emit (.store hx) ?_
    unfold frameStoreCode
    split <;> rfl
  | global slot => exact .emit (.static (.inr rfl) hx) rfl
  | field slot =>
    obtain ⟨t, hslot⟩ := hx
    exact .emit (.field (.inr rfl) hslot) rfl
  | element => exact storeElement type
  | constant v => exact .throw _
  | stack => exact .throw _
  | method id => exact .throw _

theorem combine {operator : Option Opcode}
    (hop : ∀ op, operator = some op → (op.isBare && !op.isRelative) = true) :
    Orders B (combine operator : Emission ε Unit) := by
  rcases operator with _ | op
  · exact .pure ()
  · exact .bare (hop op rfl)

theorem assign {y : Operand} {operator : Option Opcode}
    (hop : ∀ op, operator = some op → (op.isBare && !op.isRelative) = true)
    (hx : B.Places x.place) (hy : B.Places y.place) : Orders B (assign x y operator) :=
  .bind (.load hy) fun _ => .bind (.combine hop) fun _ => .store hx

theorem keepPlace : Orders B (keepPlace x) := by
  unfold Emission.keepPlace
  split
  · exact .pure ()
  · exact .bare rfl
  · exact .bare rfl
  · exact .throw _

theorem loadForUpdate (hx : B.Places x.place) : Orders B (loadForUpdate x) := by
  unfold Emission.loadForUpdate
  split
  · exact .load hx
  · exact .load hx
  · exact .bind (.bare rfl) fun _ => .load hx
  · exact .bind (.bare rfl) fun _ => .load hx
  · exact .throw _

theorem incrementPlace (hx : B.Places x.place) (step : Int32) : Orders B (incrementPlace x step) :=
  .bind .keepPlace fun _ => .bind (.load hx) fun _ => .bind (.constant step) fun _ =>
    .bind (.bare rfl) fun _ => .store hx

theorem newArray (length : Option Int32) (element : TypeId) :
    Orders B (newArray length element : Emission ε Unit) := by
  have hkind : ∀ kind : Int, kind = 0 ∨ kind = 1 →
      Orders B (Emission.emit .newArray [kind] : Emission ε Unit) :=
    fun kind h => .emit (.newArray h) rfl
  refine .bind ?_ fun _ => hkind _ ?_
  · rcases length with _ | v
    · exact .pure ()
    · exact .constant v
  · split <;> simp

end Orders

end MicroJava
