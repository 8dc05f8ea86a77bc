import MicroJava.Production.Basic

/-!
# Declarations of constants, variables and classes

    Constant  = "final" Type name "=" ( number | character ) ";" .
    Variables = Type name { "," name } ";" .
    Class     = "class" name "{" { Variables } "}" .

The fields of a class are attached to it behind the last of them, so a class can have fields of its
own type.
-/

namespace MicroJava.Production

open Token

/-- The type of the literal that comes next, if one does. -/
def literalType? : Kind → Option TypeId
  | .number => some .int
  | .character => some .char
  | _ => none

/-- The value of a constant of type `t`. -/
def constantValue (id : EntryId) (t : TypeId) : Production Unit := do
  match literalType? (← peek) with
  | some u =>
    reportIf (u ≠ t) .constantTypeMismatch
    let v ← literal
    updateEntry id fun e => { e with meaning := .constant v }
  | none => report .literalExpected

def constantDeclaration : Production Unit := do
  advance
  let t ← type
  let name ← identifier
  let id ← declare .constant name t
  expect .assign
  constantValue id t
  expect .semicolon

/-- Counts a variable of the program, if it could be declared. -/
def countGlobal (id : EntryId) : Production Unit := do
  if id ≠ .none ∧ (← table).level = SymbolTable.programLevel then
    write Emission.reserveGlobal

/-- One name of a declaration of variables, and whether another follows. -/
def variableName (t : TypeId) : Production Bool := do
  let name ← identifier
  let id ← declare .var name t
  countGlobal id
  if ← check .comma then
    advance
    return true
  else return false

def variableDeclaration : Production Unit := do
  let t ← type
  repeatWhile (variableName t)
  expect .semicolon

/-- As many declarations of variables as follow. -/
def variableDeclarations : Production Unit :=
  repeatWhile do
    if ← check .identifier then
      variableDeclaration
      return true
    else return false

def classDeclaration : Production Unit := do
  advance
  let name ← identifier
  let t ← modifyGet (·.withTable (·.newClass))
  discard (declare .typeName name t)
  expect .leftBrace
  openScope
  variableDeclarations
  reportIf ((← read).options.maxFields < (← table).current.variableCount) .tooManyFields
  let fields ← closeScope
  discard (descriptor t)
  updateTable (·.setFields t fields)
  expect .rightBrace

end MicroJava.Production
