import MicroJava.Bytecode.Comparison
import MicroJava.Bytecode.Image
import MicroJava.Fault

/-!
# Assembling code

Code grows at its end. A jump may go to a label that is not defined yet: its operand is then
written as zero and its position kept with the label, and defining the label patches it. The
operand of a jump or call is the distance from the end of the instruction, in two signed bytes.

An emission that fails keeps what it has written before.
-/

namespace MicroJava

/-- What is known of a label. -/
inductive LabelState where
  /-- Not defined yet; the operands that wait for it, in the order of their emission. -/
  | pending (positions : List Nat)
  | resolved (address : Nat)
  deriving DecidableEq, Repr, Inhabited

/-- How many operands wait for a label. -/
def LabelState.waiting : LabelState → Nat
  | .pending positions => positions.length
  | .resolved _ => 0

/-- A test and where it leads. -/
structure Branch where
  comparison : Comparison
  whenTrue : Label
  whenFalse : Label
  deriving DecidableEq, Repr, Inhabited

/-- Code that is being written. -/
structure Assembly where
  code : Array UInt8 := #[]
  labels : Array LabelState := #[]
  /-- The address of the entry method, once it is known. -/
  entry : Option Nat := none
  /-- The number of global variables. -/
  dataSize : Nat := 0
  /-- The instructions that were asked for, newest first, with the operands before they were cut to
  their fields. The operand of a jump or call is not among them: it is a distance, which is written
  or patched on its own. -/
  asked : List (Opcode × List Int) := []
  deriving DecidableEq, Inhabited

/-- A step that writes code and may fail. -/
abbrev Emission (ε α : Type) := ExceptT ε (StateM Assembly) α

namespace Assembly

/-- The address of the next instruction. -/
def here (a : Assembly) : Nat := a.code.size

/-- Appends bytes. -/
def append (a : Assembly) (bytes : List UInt8) : Assembly := { a with code := a.code ++ bytes }

/-- Appends an instruction; an opcode alone where the operands are left out. -/
def emit (a : Assembly) (op : Opcode) (operands : List Int) : Assembly :=
  { a with code := a.code ++ op.encode operands, asked := (op, operands) :: a.asked }

/-- The bytes with some of them overwritten from a position on. -/
def overwrite (code : Array UInt8) (position : Nat) : List UInt8 → Array UInt8
  | [] => code
  | b :: bytes => overwrite (code.setIfInBounds position b) (position + 1) bytes

/-- The state of a label. -/
def label? (a : Assembly) (l : Label) : Option LabelState := a.labels[l.index]?

def setLabel (a : Assembly) (l : Label) (s : LabelState) : Assembly :=
  { a with labels := a.labels.setIfInBounds l.index s }

/-- A new label that is not defined yet. -/
def newLabel (a : Assembly) : Label × Assembly :=
  (⟨a.labels.size⟩, { a with labels := a.labels.push (.pending []) })

/-- How many operands wait for their labels. -/
def unpatched (a : Assembly) : Nat := a.labels.toList.foldr (·.waiting + ·) 0

/-- The finished image, unless a jump still waits for its label. -/
def finish (a : Assembly) : Except Fault Image :=
  if a.unpatched = 0 then .ok { code := a.code, dataSize := a.dataSize, entry := a.entry }
  else .error (.unpatchedJumps a.unpatched)

end Assembly

namespace Emission

variable {ε : Type}

/-- Appends bytes. -/
def put (bytes : List UInt8) : Emission ε Unit := modify (·.append bytes)

/-- Appends an instruction. -/
def emit (op : Opcode) (operands : List Int := []) : Emission ε Unit :=
  modify (·.emit op operands)

/-- The address of the next instruction. -/
def here : Emission ε Nat := return (← get).here

/-- A new label. -/
def newLabel : Emission ε Label := modifyGet (·.newLabel)

/-- Makes room for one more global variable. -/
def reserveGlobal : Emission ε Unit := modify fun a => { a with dataSize := a.dataSize + 1 }

/-- Lets the program start at an address. -/
def setEntry (address : Nat) : Emission ε Unit := modify fun a => { a with entry := some address }

/-- Overwrites bytes from a position on. -/
def patch (position : Nat) (bytes : List UInt8) : Emission Fault Unit := do
  let size ← here
  if position + bytes.length ≤ size then
    modify fun a => { a with code := Assembly.overwrite a.code position bytes }
  else throw (.patchOutOfBounds position size)

/-- The distance from the end of an operand at a position to a target. -/
def distance (target position : Nat) : Emission Fault Int :=
  let d : Int := (target : Int) - (position + 2)
  if -32768 ≤ d ∧ d ≤ 32767 then return d else throw (.jumpOutOfRange position d)

/-- The state of a label. -/
def labelState (l : Label) : Emission Fault LabelState := do
  match (← get).label? l with
  | some s => return s
  | none => throw (.unknownLabel l)

/-- Appends the operand of a jump to a label. -/
def reference (l : Label) : Emission Fault Unit := do
  let position ← here
  match ← labelState l with
  | .resolved address => put (bigEndian 2 (← distance address position))
  | .pending positions =>
    modify fun a => (a.setLabel l (.pending (positions ++ [position]))).append (bigEndian 2 0)

/-- Defines a label as the address of the next instruction, and patches the jumps to it. -/
def define (l : Label) : Emission Fault Unit := do
  let address ← here
  match ← labelState l with
  | .resolved first => throw (.labelDefinedTwice first address)
  | .pending positions =>
    modify (·.setLabel l (.pending []))
    positions.forM fun position => do patch position (bigEndian 2 (← distance address position))
    modify (·.setLabel l (.resolved address))

/-- Jumps to a label. -/
def jump (l : Label) : Emission Fault Unit := do
  emit .jump
  reference l

/-- Jumps to the false label if the test fails, and goes on if it holds. -/
def jumpIfFalse (b : Branch) : Emission Fault Unit := do
  emit b.comparison.inverse.jump
  reference b.whenFalse

/-- Jumps to the true label if the test holds, and goes on if it fails. -/
def jumpIfTrue (b : Branch) : Emission Fault Unit := do
  emit b.comparison.jump
  reference b.whenTrue

/-- Calls the method at an address. -/
def call (address : Nat) : Emission Fault Unit := do
  emit .call
  let position ← here
  put (bigEndian 2 (← distance address position))

end Emission

end MicroJava
