import MicroJava.Assembly.Basic
import MicroJava.Operand

/-!
# Loading and storing operands

The code that brings an operand onto the stack, or stores the top of the stack into one. Small
constants and the first four slots of a frame have instructions of their own.
-/

namespace MicroJava.Emission

variable {ε : Type}

/-- The instruction that pushes a constant. -/
def constantCode (v : Int32) : Opcode × List Int :=
  if v = -1 then (.constMinus1, [])
  else if v = 0 then (.const0, [])
  else if v = 1 then (.const1, [])
  else if v = 2 then (.const2, [])
  else if v = 3 then (.const3, [])
  else if v = 4 then (.const4, [])
  else if v = 5 then (.const5, [])
  else (.const, [v.toInt])

/-- The instruction that pushes a variable of the frame. -/
def frameLoadCode : (slot : Nat) → Opcode × List Int
  | 0 => (.load0, [])
  | 1 => (.load1, [])
  | 2 => (.load2, [])
  | 3 => (.load3, [])
  | slot => (.load, [slot])

/-- The instruction that pops into a variable of the frame. -/
def frameStoreCode : (slot : Nat) → Opcode × List Int
  | 0 => (.store0, [])
  | 1 => (.store1, [])
  | 2 => (.store2, [])
  | 3 => (.store3, [])
  | slot => (.store, [slot])

/-- Characters have array instructions of their own, and all other elements are words. -/
def elementLoad (element : TypeId) : Opcode :=
  if element = .char then .charLoad else .arrayLoad

def elementStore (element : TypeId) : Opcode :=
  if element = .char then .charStore else .arrayStore

/-- Pushes a constant. -/
def constant (v : Int32) : Emission ε Unit := emit (constantCode v).1 (constantCode v).2

/-- Pushes an operand. A method has no value before it is called. -/
def load (x : Operand) : Emission Problem Unit :=
  match x.place with
  | .constant v => constant v
  | .frame slot => emit (frameLoadCode slot).1 (frameLoadCode slot).2
  | .global slot => emit .getStatic [slot]
  | .stack => return ()
  | .field slot => emit .getField [slot]
  | .element => emit (elementLoad x.type)
  | .method _ => throw .noValue

/-- Pops into a variable. -/
def store (x : Operand) : Emission Problem Unit :=
  match x.place with
  | .frame slot => emit (frameStoreCode slot).1 (frameStoreCode slot).2
  | .global slot => emit .putStatic [slot]
  | .field slot => emit .putField [slot]
  | .element => emit (elementStore x.type)
  | _ => throw .notAVariable

/-- Combines the top of the stack with the value below it, if there is an operator. -/
def combine : Option Opcode → Emission ε Unit
  | some op => emit op
  | none => return ()

/-- Loads a value, combines it with the value below it if there is an operator, and stores the
result. -/
def assign (target value : Operand) (operator : Option Opcode) : Emission Problem Unit := do
  load value
  combine operator
  store target

/-- Pushes the value of a variable, and below it what storing into the variable needs. -/
def loadForUpdate (x : Operand) : Emission Problem Unit :=
  match x.place with
  | .frame _ | .global _ => load x
  | .field _ => do
    emit .dup
    load x
  | .element => do
    emit .dup2
    load x
  | _ => throw .notAVariable

/-- Adds a small number to a variable of the frame. -/
def incrementFrame (slot : Nat) (step : Int) : Emission ε Unit := emit .inc [slot, step]

/-- Pushes what storing into a global variable, a field or an element needs once more. -/
def keepPlace (x : Operand) : Emission Problem Unit :=
  match x.place with
  | .global _ => return ()
  | .field _ => emit .dup
  | .element => emit .dup2
  | _ => throw .notAVariable

/-- Adds a number to a global variable, a field or an element. -/
def incrementPlace (x : Operand) (step : Int32) : Emission Problem Unit := do
  keepPlace x
  load x
  constant step
  emit .add
  store x

/-- Pushes a new object. -/
def newObject (size : Nat) : Emission ε Unit := emit .newObject [size]

/-- Pushes a constant, if there is one. -/
def constant? : Option Int32 → Emission ε Unit
  | some v => constant v
  | none => return ()

/-- Pushes a new array, whose length is on the stack if none is given. -/
def newArray (length : Option Int32) (element : TypeId) : Emission ε Unit := do
  constant? length
  emit .newArray [if element = .char then 0 else 1]

/-- Pops into an element. -/
def storeElement (element : TypeId) : Emission ε Unit := emit (elementStore element)

/-- Makes a frame. -/
def enter (parameters size : Nat) : Emission ε Unit := emit .enter [parameters, size]

end MicroJava.Emission
