import MicroJava.Production.Condition
import MicroJava.Production.Recovery

/-!
# Statements

    Block     = "{" { Statement } "}" .
    Statement = Designator ( Assignment Expression | Arguments | "++" | "--" ) ";"
              | "if" "(" Condition ")" Statement [ "else" Statement ]
              | "while" "(" Condition ")" Statement
              | "break" ";" | "return" [ Expression ] ";"
              | "read" "(" Designator ")" ";" | "print" "(" Expression [ "," number ] ")" ";"
              | Block | ";" .

Statements are read with the label behind the innermost loop, if there is one, which is where
`break` goes.
-/

namespace MicroJava.Production

open Token

/-! ### Statements that start with a designator -/

/-- The instruction of an assignment operator, if it has one: a plain assignment has none. -/
def assignmentOf? : Kind → Option (Option Opcode)
  | .assign => some none
  | .plusAssign => some (some .add)
  | .minusAssign => some (some .sub)
  | .timesAssign => some (some .mul)
  | .slashAssign => some (some .div)
  | .percentAssign => some (some .rem)
  | _ => none

/-- Loads the old value of `x`, if an operator needs it. -/
def loadOldValue (x : Operand) (operator : Option Opcode) : Production Unit :=
  if operator.isNone then return ()
  else if x.isVariable then attempt (Emission.loadForUpdate x)
  else report .notAVariable

/-- Stores `y` in `x`, combined with the old value if there is an operator. -/
def assignValue (x y : Operand) (operator : Option Opcode) : Production Unit := do
  if ← fits y x.type then attempt (Emission.assign x y operator) else report .incompatibleTypes

/-- An assignment to `x`, behind its operator. -/
def assignment (x : Operand) (operator : Option Opcode) : Production Unit := do
  loadOldValue x operator
  let y ← expression
  reportIf (operator.isSome ∧ (x.type ≠ .int ∨ y.type ≠ .int)) .operandNotInt
  assignValue x y operator

/-- A step of `x` by one, behind its operator. -/
def increment (x : Operand) (step : Int32) : Production Unit := do
  if x.type ≠ .int then report .notAnIntVariable
  else
    match x.place with
    | .frame slot => write (Emission.incrementFrame slot step.toInt)
    | _ => attempt (Emission.incrementPlace x step)

/-- A call of `x` whose result is dropped. -/
def callAlone (x : Operand) : Production Unit := do
  let y ← call expression x
  if y.type ≠ .none then emit .pop

/-- What a statement does with the operand that it starts with. -/
def designatorAction (x : Operand) : Production Unit := do
  let k ← peek
  match assignmentOf? k with
  | some operator =>
    advance
    assignment x operator
  | none =>
    match k with
    | .leftParen => callAlone x
    | .increment =>
      advance
      increment x 1
    | .decrement =>
      advance
      increment x (-1)
    | _ => report .designatorAlone

/-- An assignment, a call whose result is dropped, or a step by one. -/
def designatorStatement : Production Unit := do
  let x ← designator expression
  designatorAction x
  expect .semicolon

/-! ### Statements that start with a word -/

/-- A condition in parentheses, and the jump past the statement behind it. -/
def guardCondition : Production Branch := do
  expect .leftParen
  let b ← condition
  expect .rightParen
  write (Emission.jumpIfFalse b)
  write (Emission.define b.whenTrue)
  return b

def ifStatement (statement : Option Label → Production Unit) (exit : Option Label) :
    Production Unit := do
  advance
  let b ← guardCondition
  statement exit
  if ← check .elseWord then
    advance
    let behind ← write Emission.newLabel
    write (Emission.jump behind)
    write (Emission.define b.whenFalse)
    statement exit
    write (Emission.define behind)
  else write (Emission.define b.whenFalse)

def whileStatement (statement : Option Label → Production Unit) : Production Unit := do
  advance
  let top ← write Emission.newLabel
  write (Emission.define top)
  let b ← guardCondition
  let exit ← write Emission.newLabel
  statement (some exit)
  write (Emission.jump top)
  write (Emission.define b.whenFalse)
  write (Emission.define exit)

/-- The jump out of the innermost loop. -/
def leave : Option Label → Production Unit
  | some label => write (Emission.jump label)
  | none => report .breakOutsideLoop

def breakStatement (exit : Option Label) : Production Unit := do
  advance
  leave exit
  expect .semicolon

/-- Loads the value that a method of type `type` returns. -/
def returnOperand (x : Operand) (type : TypeId) : Production Unit := do
  if type = .none then report .returnFromVoid
  else
    let fitting ← fits x type
    load x
    reportIf (!fitting) .returnMismatch

/-- The value that a method of type `type` returns, if one is given. -/
def returnValue (type : TypeId) : Production Unit := do
  if ← checkAny expressionStarts then
    let x ← expression
    returnOperand x type
  else reportIf (type ≠ .none) .returnWithoutValue

def returnStatement : Production Unit := do
  advance
  returnValue (← get).returnType
  emit .exit
  emit .ret
  expect .semicolon

/-- The instructions that read and print a value of a type, which must be a number or a
character. -/
def inputOutput? (type : TypeId) : Option (Opcode × Opcode) :=
  if type = .int then some (.read, .print)
  else if type = .char then some (.readChar, .printChar)
  else none

/-- Reads a value into `x`. -/
def readInto (x : Operand) : Production Unit := do
  match inputOutput? x.type with
  | some (input, _) =>
    emit input
    attempt (Emission.store x)
  | none => report .notReadable

def readStatement : Production Unit := do
  advance
  expect .leftParen
  let x ← designator expression
  readInto x
  expect .rightParen
  expect .semicolon

/-- The field width of a print statement, behind the value. -/
def printWidth : Production Int32 := do
  let default := (← read).options.printWidth
  if ← check .comma then
    advance
    if ← check .number then literal
    else
      expect .number
      return default
  else return default

/-- Writes the instruction that prints a value of a type, if there is one. -/
def emitPrint (type : TypeId) : Production Unit :=
  match inputOutput? type with
  | some (_, output) => emit output
  | none => return ()

def printStatement : Production Unit := do
  advance
  expect .leftParen
  let x ← expression
  reportIf (inputOutput? x.type).isNone .notPrintable
  load x
  write (Emission.constant (← printWidth))
  emitPrint x.type
  expect .rightParen
  expect .semicolon

/-! ### Blocks -/

/-- The statements of a block, between its braces. -/
def blockOf (statement : Option Label → Production Unit) (exit : Option Label) :
    Production Unit := do
  expect .leftBrace
  repeatWhile do
    match ← peek with
    | .rightBrace | .endOfFile => return false
    | _ =>
      statement exit
      return true
  expect .rightBrace

/-- A statement, given the production of the statements inside it. -/
def statementOf (statement : Option Label → Production Unit) (exit : Option Label) :
    Production Unit := do
  match ← peek with
  | .identifier => designatorStatement
  | .ifWord => ifStatement statement exit
  | .whileWord => whileStatement statement
  | .breakWord => breakStatement exit
  | .returnWord => returnStatement
  | .readWord => readStatement
  | .printWord => printStatement
  | .leftBrace => blockOf statement exit
  | .semicolon => advance
  | _ => recoverStatement

/-- A statement nested at most `depth` deep. -/
def nestedStatement : (depth : Nat) → Option Label → Production Unit
  | 0, _ => throw .stalled
  | depth + 1, exit => statementOf (nestedStatement depth) exit

/-- The block of a method. -/
def block : Production Unit := do blockOf (nestedStatement (← read).bound) none

end MicroJava.Production
