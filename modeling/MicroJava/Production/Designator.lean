import MicroJava.Production.Basic

/-!
# Designators

    Designator = name { "." name | "[" Expression "]" } .

A designator names a variable, a constant or a method, or a part of a variable. All of it but its
last step is loaded, so that the operand is the place of the last field or element. The production
of the expressions inside a designator is an argument of its own production.
-/

namespace MicroJava.Production

open Token

/-- The operand that a name stands for. -/
def namedOperand : Production Operand := do
  let name ← identifier
  let id ← find name
  match Operand.ofEntry id (← entry id) with
  | .ok x => return x
  | .error p =>
    report p
    return .missing

/-- The field of `x` that is named next. -/
def fieldOf (x : Operand) : Production Operand := do
  if (← descriptor x.type).isClass then
    load x
    let name ← identifier
    let id ← findField name x.type
    if id = .none then return .missing
    let e ← entry id
    return ⟨.field e.address, e.type⟩
  else
    report .notAnObject
    discard identifier
    return .missing

/-- Loads an array, so that one of its elements can be reached. -/
def loadArray (d : Descriptor) (x : Operand) : Production Unit :=
  if d.isArray then load x else report .notAnArray

/-- Loads an index or a size, which must be an integer. -/
def loadInteger (expression : Production Operand) (mistake : Problem) : Production Unit := do
  let x ← expression
  reportIf (x.type ≠ .int) mistake
  load x

/-- The element of `x` at the index that follows. -/
def elementOf (expression : Production Operand) (x : Operand) : Production Operand := do
  let d ← descriptor x.type
  loadArray d x
  loadInteger expression .indexNotInt
  expect .rightBracket
  return if d.isArray then ⟨.element, d.element⟩ else .missing

/-- One more step of a designator, or its end. -/
def designatorStep (expression : Production Operand) (x : Operand) :
    Production (Operand ⊕ Operand) := do
  match ← peek with
  | .dot =>
    advance
    return .inl (← fieldOf x)
  | .leftBracket =>
    advance
    return .inl (← elementOf expression x)
  | _ => return .inr x

/-- A variable, constant or method, or a part of a variable. -/
def designator (expression : Production Operand) : Production Operand := do
  loop (designatorStep expression) (← namedOperand)

end MicroJava.Production
