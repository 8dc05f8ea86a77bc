import MicroJava.Production.Call
import MicroJava.Production.Designator

/-!
# Expressions

    Expression = [ "-" ] Term { ( "+" | "-" ) Term } .
    Term       = Factor { ( "*" | "/" | "%" ) Factor } .
    Factor     = Designator [ Arguments ] | number | character | "(" Expression ")"
               | "new" name [ "[" Expression "]" ] .

An expression gives an operand that is not loaded yet, so a constant or variable alone writes no
code. The left side of an operator is loaded before code for the right side is written. The
productions take the production of the expressions inside them, and `expression` ties the knot.
-/

namespace MicroJava.Production

open Token

/-- A new array with elements of a type, from its opening bracket on. -/
def arrayCreation (expression : Production Operand) (type : TypeId) : Production Operand := do
  advance
  loadInteger expression .sizeNotInt
  expect .rightBracket
  write (Emission.newArray none type)
  return .onStack (← arrayOf type)

/-- A new object of a type, which must be a class. -/
def objectCreation (type : TypeId) : Production Operand := do
  let d ← descriptor type
  if d.isClass then write (Emission.newObject d.fields.length)
  else reportIf (type ≠ .none) .notAClass
  return .onStack type

/-- A new array or object, behind the word `new`. -/
def creation (expression : Production Operand) : Production Operand := do
  let type ← namedType
  if ← check .leftBracket then arrayCreation expression type else objectCreation type

/-- A designator, or a call of it for its value. -/
def designatorFactor (expression : Production Operand) : Production Operand := do
  let x ← designator expression
  if ← check .leftParen then
    reportIf x.isVoidMethod .voidInExpression
    call expression x
  else return x

def factor (expression : Production Operand) : Production Operand := do
  match ← peek with
  | .identifier => designatorFactor expression
  | .number => return .constant (← literal) .int
  | .character => return .constant (← literal) .char
  | .newWord =>
    advance
    creation expression
  | .leftParen =>
    advance
    let x ← expression
    expect .rightParen
    return x
  | _ =>
    report .invalidFactor
    return .missing

/-- One more operator and operand behind `x`, or the end of the chain. -/
def operation (operator? : Kind → Option Opcode) (operand : Production Operand) (x : Operand) :
    Production (Operand ⊕ Operand) := do
  match operator? (← peek) with
  | none => return .inr x
  | some op =>
    advance
    load x
    let y ← operand
    load y
    reportIf (x.type ≠ .int ∨ y.type ≠ .int) .operandNotInt
    emit op
    return .inl (.onStack .int)

/-- The instructions of the operators that multiply. -/
def multiplying? : Kind → Option Opcode
  | .times => some .mul
  | .slash => some .div
  | .percent => some .rem
  | _ => none

/-- The instructions of the operators that add. -/
def adding? : Kind → Option Opcode
  | .plus => some .add
  | .minus => some .sub
  | _ => none

def term (expression : Production Operand) : Production Operand := do
  let f := factor expression
  loop (operation multiplying? f) (← f)

/-- The negation of `x`, which is done at once for a constant. -/
def negate (x : Operand) : Production Operand := do
  if x.type ≠ .int then
    report .operandNotInt
    return x
  match x.constant? with
  | some v => return .constant (-v) .int
  | none =>
    load x
    emit .neg
    return x.loaded

/-- The first term of a sum. A sign in front of it belongs to the whole term. -/
def firstTerm (expression : Production Operand) : Production Operand := do
  if ← check .minus then
    advance
    negate (← term expression)
  else term expression

def sum (expression : Production Operand) : Production Operand := do
  let x ← firstTerm expression
  loop (operation adding? (term expression)) x

/-- An expression nested at most `depth` deep. -/
def nestedExpression : (depth : Nat) → Production Operand
  | 0 => throw .stalled
  | depth + 1 => sum (nestedExpression depth)

def expression : Production Operand := do nestedExpression (← read).bound

end MicroJava.Production
