import Mathlib.Logic.Function.Basic
import MicroJava.Proofs.Encoded

/-!
# A machine that computes

A stack machine with the memory of a running program: the variables of the current method, the global
variables, objects and arrays, which are handled by reference. It runs the instructions that compute and
those that store (`Machine.step`). Where control goes is seen elsewhere, and what makes objects, calls
methods, reads or prints is not run.

Taking a part of an object or an array, and dividing, may stop a computation. All that may is noted before
it is done (`Computation`), so two computations are the same only if they do the same things in the same
order, and stop at the same one or give the same value.
-/

namespace MicroJava

/-! ### Computations that may stop -/

/-- Why a computation stops. -/
inductive Stop where
  /-- A part of `null` is wanted. -/
  | null
  /-- An index is outside of its array. -/
  | index
  /-- A division by zero. -/
  | division
  /-- There are too few values on the stack, or the instruction is not one that is run here. -/
  | stuck
  deriving DecidableEq

/-- What may stop a computation. -/
inductive Access where
  | field (object : Int32) (slot : Nat)
  | word (array index : Int32)
  | character (array index : Int32)
  | length (array : Int32)
  | quotient (x y : Int32)
  | remainder (x y : Int32)
  deriving DecidableEq

/-- A computation that may stop, and notes all that may stop it, the newest first. -/
abbrev Computation (α : Type) := ExceptT Stop (StateM (List Access)) α

namespace Computation

/-- Notes what is done next. -/
def note (a : Access) : Computation Unit := modify (a :: ·)

/-- Stops unless the condition holds. -/
def require (p : Prop) [Decidable p] (stop : Stop) : Computation Unit :=
  if p then return () else throw stop

/-- The quotient of two numbers, rounded towards zero. -/
def divide (x y : Int32) : Computation Int32 := do
  note (.quotient x y)
  require (y ≠ 0) .division
  return x / y

/-- The remainder of that division, with the sign of the dividend. -/
def remainder (x y : Int32) : Computation Int32 := do
  note (.remainder x y)
  require (y ≠ 0) .division
  return x % y

end Computation

open Computation

/-- The memory of a running program. The reference 0 is `null`. -/
structure Memory where
  /-- The variables of the current method. -/
  locals : Nat → Int32
  /-- The global variables. -/
  statics : Nat → Int32
  /-- The fields of objects. -/
  fields : Int32 → Nat → Int32
  /-- The lengths of arrays. -/
  lengths : Int32 → Int32
  /-- The elements of arrays other than those of characters. -/
  words : Int32 → Nat → Int32
  /-- The elements of arrays of characters. -/
  characters : Int32 → Nat → Int32

namespace Memory

variable (m : Memory)

/-- An object is there. -/
def checkObject (object : Int32) (slot : Nat) : Computation Unit := do
  note (.field object slot)
  require (object ≠ 0) .null

/-- An array is there, and the index is inside of it. -/
def checkIndex (array index : Int32) : Computation Unit := do
  require (array ≠ 0) .null
  require (0 ≤ index ∧ index < m.lengths array) .index

def field (object : Int32) (slot : Nat) : Computation Int32 := do
  checkObject object slot
  return m.fields object slot

def word (array index : Int32) : Computation Int32 := do
  note (.word array index)
  m.checkIndex array index
  return m.words array index.toInt.toNat

def character (array index : Int32) : Computation Int32 := do
  note (.character array index)
  m.checkIndex array index
  return m.characters array index.toInt.toNat

def length (array : Int32) : Computation Int32 := do
  note (.length array)
  require (array ≠ 0) .null
  return m.lengths array

def setLocal (slot : Nat) (v : Int32) : Memory := { m with locals := Function.update m.locals slot v }

def setStatic (slot : Nat) (v : Int32) : Memory := { m with statics := Function.update m.statics slot v }

def setField (object : Int32) (slot : Nat) (v : Int32) : Computation Memory := do
  checkObject object slot
  return { m with
    fields := Function.update m.fields object (Function.update (m.fields object) slot v) }

def setWord (array index v : Int32) : Computation Memory := do
  note (.word array index)
  m.checkIndex array index
  return { m with
    words := Function.update m.words array (Function.update (m.words array) index.toInt.toNat v) }

def setCharacter (array index v : Int32) : Computation Memory := do
  note (.character array index)
  m.checkIndex array index
  return { m with
    characters :=
      Function.update m.characters array (Function.update (m.characters array) index.toInt.toNat v) }

end Memory

/-! ### The machine -/

/-- A memory and a stack. -/
structure Machine where
  memory : Memory
  /-- The values on the stack, the top first. -/
  stack : List Int32

/-- An instruction as it is asked for. -/
abbrev Order := Opcode × List Int

/-- The bytes of instructions. -/
def Order.bytes (os : List Order) : List UInt8 := os.flatMap fun o => o.1.encode o.2

namespace Machine

def push (m : Machine) (v : Int32) : Machine := { m with stack := v :: m.stack }

/-- Takes the top of the stack. -/
def pop {α : Type} (m : Machine) (next : Int32 → Machine → Computation α) : Computation α :=
  match m.stack with
  | v :: stack => next v { m with stack }
  | [] => throw .stuck

/-- Replaces the top of the stack. -/
def unary (f : Int32 → Computation Int32) (m : Machine) : Computation Machine :=
  m.pop fun x m => return m.push (← f x)

/-- Replaces the top two values by one. The lower one is the left operand. -/
def binary (f : Int32 → Int32 → Computation Int32) (m : Machine) : Computation Machine :=
  m.pop fun y m => m.pop fun x m => return m.push (← f x y)

/-- Pops three values, and stores the top one where the others say. -/
def storeElement (f : Int32 → Int32 → Int32 → Computation Memory) (m : Machine) :
    Computation Machine :=
  m.pop fun v m => m.pop fun index m => m.pop fun array m =>
    return { m with memory := ← f array index v }

/-- Pops into a variable of the method. -/
def storeLocal (slot : Nat) (m : Machine) : Computation Machine :=
  m.pop fun v m => return { m with memory := m.memory.setLocal slot v }

/-- Runs an instruction. -/
def step (op : Opcode) (operands : List Int) (m : Machine) : Computation Machine :=
  let slot := (operands.headD 0).toNat
  match op with
  | .load => return m.push (m.memory.locals slot)
  | .load0 => return m.push (m.memory.locals 0)
  | .load1 => return m.push (m.memory.locals 1)
  | .load2 => return m.push (m.memory.locals 2)
  | .load3 => return m.push (m.memory.locals 3)
  | .store => m.storeLocal slot
  | .store0 => m.storeLocal 0
  | .store1 => m.storeLocal 1
  | .store2 => m.storeLocal 2
  | .store3 => m.storeLocal 3
  | .getStatic => return m.push (m.memory.statics slot)
  | .putStatic => m.pop fun v m => return { m with memory := m.memory.setStatic slot v }
  | .getField => m.unary fun object => m.memory.field object slot
  | .putField => m.pop fun v m => m.pop fun object m =>
      return { m with memory := ← m.memory.setField object slot v }
  | .const0 => return m.push 0
  | .const1 => return m.push 1
  | .const2 => return m.push 2
  | .const3 => return m.push 3
  | .const4 => return m.push 4
  | .const5 => return m.push 5
  | .constMinus1 => return m.push (-1)
  | .const => return m.push (.ofInt (operands.headD 0))
  | .add => m.binary fun x y => return x + y
  | .sub => m.binary fun x y => return x - y
  | .mul => m.binary fun x y => return x * y
  | .div => m.binary divide
  | .rem => m.binary remainder
  | .neg => m.unary fun x => return -x
  | .shl => m.binary fun x y => return x <<< y
  | .shr => m.binary fun x y => return x >>> y
  | .inc =>
    return { m with
      memory := m.memory.setLocal slot (m.memory.locals slot + .ofInt (operands.getD 1 0)) }
  | .arrayLoad => m.binary m.memory.word
  | .arrayStore => m.storeElement m.memory.setWord
  | .charLoad => m.binary m.memory.character
  | .charStore => m.storeElement m.memory.setCharacter
  | .arrayLength => m.unary m.memory.length
  | .pop => m.pop fun _ m => return m
  | .dup => m.pop fun v m => return (m.push v).push v
  | .dup2 => m.pop fun y m => m.pop fun x m => return (((m.push x).push y).push x).push y
  | .nop => return m
  | .newObject | .newArray | .jump | .jumpEq | .jumpNe | .jumpLt | .jumpLe | .jumpGt | .jumpGe
  | .call | .ret | .enter | .exit | .read | .print | .readChar | .printChar | .trap => throw .stuck

/-- Runs instructions, one after the other. -/
def perform (os : List Order) (m : Machine) : Computation Machine :=
  os.foldlM (fun m o => m.step o.1 o.2) m

/-- Runs instructions that are read from code. -/
def execute (is : List Instruction) : Machine → Computation Machine :=
  perform (is.map fun i => (i.opcode, i.operands))

theorem perform_append (os os' : List Order) (m : Machine) :
    perform (os ++ os') m = perform os m >>= perform os' :=
  List.foldlM_append

theorem perform_singleton (o : Order) (m : Machine) : perform [o] m = m.step o.1 o.2 := by
  simp [perform]

end Machine

/-! ### Instructions that push a value -/

/-- The instructions push the value that `f` computes from the memory, and change nothing else. -/
def Pushes (f : Memory → Computation Int32) (os : List Order) : Prop :=
  ∀ m : Machine, Machine.perform os m = do return m.push (← f m.memory)

namespace Pushes

open Machine

variable {f g : Memory → Computation Int32} {os os' : List Order}

/-- A single instruction. -/
theorem single {o : Order} (h : ∀ m : Machine, m.step o.1 o.2 = do return m.push (← f m.memory)) :
    Pushes f [o] := by
  intro m
  rw [perform_singleton]
  exact h m

theorem constant (v : Int32) : Pushes (fun _ => return v) [Emission.constantCode v] := by
  refine single fun m => ?_
  unfold Emission.constantCode
  by_cases h₀ : v = -1 ∨ v = 0 ∨ v = 1 ∨ v = 2 ∨ v = 3 ∨ v = 4 ∨ v = 5
  · rcases h₀ with rfl | rfl | rfl | rfl | rfl | rfl | rfl <;> rfl
  · simp only [not_or] at h₀
    simp [h₀, step]

theorem frame (slot : Nat) :
    Pushes (fun m => return m.locals slot) [Emission.frameLoadCode slot] := by
  refine single fun m => ?_
  unfold Emission.frameLoadCode
  split <;> simp [step]

theorem global (slot : Nat) : Pushes (fun m => return m.statics slot) [(.getStatic, [slot])] :=
  single fun m => by simp [step]

/-- An instruction behind those that push its operand. -/
theorem unary {op : Opcode} {operands : List Int} {u : Memory → Int32 → Computation Int32}
    (h : Pushes f os) (hstep : ∀ m : Machine, m.step op operands = m.unary (u m.memory)) :
    Pushes (fun m => do u m (← f m)) (os ++ [(op, operands)]) := by
  intro m
  rw [perform_append, h m]
  simp [perform_singleton, hstep, Machine.unary, pop, push]

/-- The instructions for the right operand leave the left one on the stack. -/
theorem binary {op : Opcode} {b : Memory → Int32 → Int32 → Computation Int32}
    (h : Pushes f os) (h' : Pushes g os')
    (hstep : ∀ m : Machine, m.step op [] = m.binary (b m.memory)) :
    Pushes (fun m => do b m (← f m) (← g m)) (os ++ os' ++ [(op, [])]) := by
  intro m
  rw [perform_append, perform_append, h m]
  simp only [bind_assoc, pure_bind, h' _]
  simp [perform_singleton, hstep, Machine.binary, pop, push]

end Pushes

/-! ### Instructions that are read back -/

/-- The instruction is no jump or call, and its operands fit their fields. -/
structure Order.Fits (o : Order) : Prop where
  relative : o.1.isRelative = false
  operands : List.Forall₂ Field.Holds o.1.fields o.2

theorem encodeFrom_plain (fill : Nat → Label → Int) (os : List Order) (p : Nat) :
    encodeFrom fill p (os.map fun o => .plain o.1 o.2) = Order.bytes os := by
  induction os generalizing p with
  | nil => rfl
  | cons o os ih =>
    rw [List.map_cons, encodeFrom, ih]
    rfl

theorem instructionsFrom_plain (fill : Nat → Label → Int) {os : List Order} (h : ∀ o ∈ os, o.Fits)
    (p : Nat) :
    (instructionsFrom fill p (os.map fun o => .plain o.1 o.2)).map (fun i => (i.opcode, i.operands)) =
      os := by
  induction os generalizing p with
  | nil => rfl
  | cons o os ih =>
    rw [List.forall_mem_cons] at h
    rw [List.map_cons, instructionsFrom, List.map_cons, ih h.2]
    congr 1
    exact Prod.ext rfl (zipWith_decode_encode h.1.operands)

/-- Instructions whose operands fit are read back from their bytes. -/
theorem Order.decode_bytes {os : List Order} (h : ∀ o ∈ os, o.Fits) :
    ∃ is, Instruction.decode (bytes os) = .ok is ∧ Machine.execute is = Machine.perform os := by
  let fill : Nat → Label → Int := fun _ _ => 0
  let items : List Item := os.map fun o => .plain o.1 o.2
  have hwf : ∀ i ∈ items, i.WellFormed := by
    rw [List.forall_mem_map]
    exact fun o ho => ⟨(h o ho).relative, (h o ho).operands.length_eq.symm⟩
  refine ⟨instructionsFrom fill 0 items, ?_, ?_⟩
  · rw [← encodeFrom_plain fill os 0]
    exact decode_encodeFrom hwf
  · rw [Machine.execute, instructionsFrom_plain fill h]

end MicroJava
