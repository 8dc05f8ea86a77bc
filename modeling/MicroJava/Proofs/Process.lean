import Mathlib.Logic.Relation
import MicroJava.Proofs.Machine

/-!
# A machine that runs programs

A machine that runs all instructions, on the bytes of a program (`Process.next`): it calls methods, makes
objects and arrays, reads and prints. A value is a number or refers to what was allocated, so a reference
is only got by copying one, and what is allocated is only reached through references.

An instruction is an action (`Action`), which is made of a few actions that each do one thing.
-/

namespace MicroJava

/-! ### What a program stores -/

/-- A value. `null` is the number 0. -/
inductive Datum where
  | number (v : Int32)
  | reference (cell : Nat)
  deriving DecidableEq

/-- What is allocated. -/
inductive Cell where
  | object (fields : List Datum)
  | array (characters : Bool) (elements : List Datum)
  deriving DecidableEq

/-- The values in a cell. -/
def Cell.data : Cell → List Datum
  | object fields => fields
  | array _ elements => elements

/-- What a program has besides the stack and what its callers will go on with. -/
structure Storage where
  /-- The variables of the current method. -/
  locals : List Datum
  /-- The global variables. -/
  statics : List Datum
  /-- What is allocated, in the order in which it was. -/
  cells : List Cell
  /-- What will be read. -/
  input : List Int32
  /-- What was printed, each with the width of its field, the newest first. -/
  output : List (Int32 × Int32)
  deriving DecidableEq

structure Process where
  /-- The address of the next instruction. -/
  place : Nat
  /-- The values on the expression stack, the top first. -/
  stack : List Datum
  /-- Where calls return to, and the variables of the methods in which they are, the newest first. -/
  callers : List (Nat ⊕ List Datum)
  storage : Storage
  deriving DecidableEq

/-! ### Actions -/

/-- A step of a process, which may stop it. -/
abbrev Action (α : Type) := StateT Process (Except Stop) α

namespace Action

variable {α : Type}

def stop (reason : Stop) : Action α := fun _ => .error reason

/-- The value, if there is one. -/
def want (x : Option α) (reason : Stop) : Action α := x.elim (stop reason) pure

def goto (place : Nat) : Action Unit := fun p => .ok ((), { p with place })

def push (d : Datum) : Action Unit := fun p => .ok ((), { p with stack := d :: p.stack })

def pop : Action Datum := fun p =>
  match p.stack with
  | d :: stack => .ok (d, { p with stack })
  | [] => .error .stuck

/-- Keeps what a caller will go on with. -/
def save (x : Nat ⊕ List Datum) : Action Unit := fun p => .ok ((), { p with callers := x :: p.callers })

def restore : Action (Nat ⊕ List Datum) := fun p =>
  match p.callers with
  | x :: callers => .ok (x, { p with callers })
  | [] => .error .stuck

/-- A variable of the method. -/
def getLocal (slot : Nat) : Action Datum := fun p => want p.storage.locals[slot]? .stuck p

def setLocal (slot : Nat) (d : Datum) : Action Unit := fun p =>
  .ok ((), { p with storage := { p.storage with locals := p.storage.locals.set slot d } })

/-- Other variables take the place of those of the method. -/
def swapLocals (locals : List Datum) : Action (List Datum) := fun p =>
  .ok (p.storage.locals, { p with storage := { p.storage with locals } })

/-- A global variable. -/
def getStatic (slot : Nat) : Action Datum := fun p => want p.storage.statics[slot]? .stuck p

def setStatic (slot : Nat) (d : Datum) : Action Unit := fun p =>
  .ok ((), { p with storage := { p.storage with statics := p.storage.statics.set slot d } })

def getCell (c : Nat) : Action Cell := fun p => want p.storage.cells[c]? .stuck p

def setCell (c : Nat) (x : Cell) : Action Unit := fun p =>
  .ok ((), { p with storage := { p.storage with cells := p.storage.cells.set c x } })

/-- Pushes a reference to a new cell. -/
def allocate (x : Cell) : Action Unit := fun p =>
  .ok ((), { p with
    stack := .reference p.storage.cells.length :: p.stack
    storage := { p.storage with cells := p.storage.cells ++ [x] } })

def read : Action Int32 := fun p =>
  match p.storage.input with
  | v :: input => .ok (v, { p with storage := { p.storage with input } })
  | [] => .error .stuck

def print (v width : Int32) : Action Unit := fun p =>
  .ok ((), { p with storage := { p.storage with output := (v, width) :: p.storage.output } })

/-! #### Values of a kind -/

def popNumber : Action Int32 := do
  match ← pop with
  | .number v => return v
  | .reference _ => stop .stuck

/-- Pops a reference to a cell. -/
def popCell : Action Nat := do
  match ← pop with
  | .reference c => return c
  | .number v => stop (if v = 0 then .null else .stuck)

/-- Pops several values, the top first. -/
def popAll : Nat → Action (List Datum)
  | 0 => return []
  | n + 1 => do
    let d ← pop
    return d :: (← popAll n)

def fieldsOf : Cell → Action (List Datum)
  | .object fields => return fields
  | .array _ _ => stop .stuck

def elementsOf (characters : Bool) : Cell → Action (List Datum)
  | .array k elements => if k = characters then return elements else stop .stuck
  | .object _ => stop .stuck

/-- The place of an index in an array. -/
def indexIn (elements : List Datum) (i : Int32) : Action Nat :=
  if 0 ≤ i ∧ i.toInt < elements.length then return i.toInt.toNat else stop .index

/-! #### Instructions -/

def loadLocal (slot : Nat) : Action Unit := do push (← getLocal slot)

def storeLocal (slot : Nat) : Action Unit := do setLocal slot (← pop)

def loadField (slot : Nat) : Action Unit := do
  let fields ← fieldsOf (← getCell (← popCell))
  push (← want fields[slot]? .stuck)

def storeField (slot : Nat) : Action Unit := do
  let d ← pop
  let c ← popCell
  let fields ← fieldsOf (← getCell c)
  setCell c (.object (fields.set slot d))

def loadElement (characters : Bool) : Action Unit := do
  let i ← popNumber
  let elements ← elementsOf characters (← getCell (← popCell))
  push (← want elements[← indexIn elements i]? .index)

def storeElement (characters : Bool) : Action Unit := do
  let d ← pop
  let i ← popNumber
  let c ← popCell
  let elements ← elementsOf characters (← getCell c)
  setCell c (.array characters (elements.set (← indexIn elements i) d))

def lengthOf : Cell → Action Int32
  | .array _ elements => return .ofNat elements.length
  | .object _ => stop .stuck

def newArray (characters : Bool) : Action Unit := do
  let n ← popNumber
  if 0 ≤ n then allocate (.array characters (.replicate n.toInt.toNat (.number 0)))
  else stop .stuck

/-- Replaces two numbers by one. -/
def combine (f : Int32 → Int32 → Option Int32) : Action Unit := do
  let y ← popNumber
  let x ← popNumber
  push (.number (← want (f x y) .division))

/-- A comparison of two values. Only numbers have an order. -/
def holds : Comparison → Datum → Datum → Option Bool
  | .eq, x, y => some (decide (x = y))
  | .ne, x, y => some (decide (x ≠ y))
  | .lt, .number x, .number y => some (decide (x < y))
  | .le, .number x, .number y => some (decide (x ≤ y))
  | .gt, .number x, .number y => some (decide (y < x))
  | .ge, .number x, .number y => some (decide (y ≤ x))
  | _, _, _ => none

/-- Goes to the target if the comparison holds. -/
def branch (c : Comparison) (target : Option Nat) : Action Unit := do
  let y ← pop
  let x ← pop
  if ← want (holds c x y) .stuck then goto (← want target .stuck) else return ()

/-- Calls the method at the target. -/
def call (target : Option Nat) (back : Nat) : Action Unit := do
  save (.inl back)
  goto (← want target .stuck)

/-- Makes a frame of a method, in which the arguments come first. -/
def enter (parameters size : Nat) : Action Unit := do
  let arguments ← popAll parameters
  let frame := arguments.reverse ++ .replicate (size - parameters) (.number 0)
  save (.inr (← swapLocals frame))

/-- Drops the frame of a method. -/
def exit : Action Unit := do
  match ← restore with
  | .inr locals => discard (swapLocals locals)
  | .inl _ => stop .stuck

/-- Goes on behind the call. -/
def ret : Action Unit := do
  match ← restore with
  | .inl place => goto place
  | .inr _ => stop .stuck

def printNumber : Action Unit := do
  let width ← popNumber
  let v ← popNumber
  print v width

/-- Does what an instruction does. -/
def execute (i : Instruction) : Action Unit :=
  let first := i.operands.headD 0
  match i.opcode with
  | .load => loadLocal first.toNat
  | .load0 => loadLocal 0
  | .load1 => loadLocal 1
  | .load2 => loadLocal 2
  | .load3 => loadLocal 3
  | .store => storeLocal first.toNat
  | .store0 => storeLocal 0
  | .store1 => storeLocal 1
  | .store2 => storeLocal 2
  | .store3 => storeLocal 3
  | .getStatic => do push (← getStatic first.toNat)
  | .putStatic => do setStatic first.toNat (← pop)
  | .getField => loadField first.toNat
  | .putField => storeField first.toNat
  | .const0 => push (.number 0)
  | .const1 => push (.number 1)
  | .const2 => push (.number 2)
  | .const3 => push (.number 3)
  | .const4 => push (.number 4)
  | .const5 => push (.number 5)
  | .constMinus1 => push (.number (-1))
  | .const => push (.number (.ofInt first))
  | .add => combine fun x y => some (x + y)
  | .sub => combine fun x y => some (x - y)
  | .mul => combine fun x y => some (x * y)
  | .div => combine fun x y => if y = 0 then none else some (x / y)
  | .rem => combine fun x y => if y = 0 then none else some (x % y)
  | .neg => do push (.number (-(← popNumber)))
  | .shl => combine fun x y => some (x <<< y)
  | .shr => combine fun x y => some (x >>> y)
  | .inc => do
    match ← getLocal first.toNat with
    | .number v => setLocal first.toNat (.number (v + .ofInt (i.operands.getD 1 0)))
    | .reference _ => stop .stuck
  | .newObject => allocate (.object (.replicate first.toNat (.number 0)))
  | .newArray => newArray (decide (first = 0))
  | .arrayLoad => loadElement false
  | .arrayStore => storeElement false
  | .charLoad => loadElement true
  | .charStore => storeElement true
  | .arrayLength => do push (.number (← lengthOf (← getCell (← popCell))))
  | .pop => discard pop
  | .dup => do
    let d ← pop
    push d
    push d
  | .dup2 => do
    let y ← pop
    let x ← pop
    push x
    push y
    push x
    push y
  | .jump => do goto (← want i.target? .stuck)
  | .jumpEq => branch .eq i.target?
  | .jumpNe => branch .ne i.target?
  | .jumpLt => branch .lt i.target?
  | .jumpLe => branch .le i.target?
  | .jumpGt => branch .gt i.target?
  | .jumpGe => branch .ge i.target?
  | .call => call i.target? (i.offset + i.size)
  | .ret => ret
  | .enter => enter first.toNat (i.operands.getD 1 0).toNat
  | .exit => exit
  | .read | .readChar => do push (.number (← read))
  | .print | .printChar => printNumber
  | .trap => stop .stuck
  | .nop => return ()

end Action

/-- The instruction at an address. -/
def Instruction.fetch? (code : List UInt8) (place : Nat) : Option Instruction :=
  match code.drop place with
  | [] => none
  | b :: rest => do
    let op ← Opcode.ofByte? b
    let operands ← readFields? op.fields rest
    return ⟨place, op, operands⟩

namespace Process

open Action

/-- Runs the next instruction. -/
def next (code : List UInt8) (p : Process) : Except Stop Process :=
  match Instruction.fetch? code p.place with
  | some i => (execute i { p with place := i.offset + i.size }).map (·.2)
  | none => .error .stuck

/-- The process leads to the other one, whatever is below on its stacks. -/
def Leads (code : List UInt8) : Process → Process → Prop :=
  Relation.ReflTransGen fun p q => p.next code = .ok q

end Process

end MicroJava
