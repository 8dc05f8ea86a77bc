import MicroJava.Production.Method

/-!
# Programs

    Program = "program" name { Constant | Variables | Class } "{" { Method } "}" .
-/

namespace MicroJava.Production

open Token

/-- The declarations of a program in front of its methods. -/
def declarations : Production Unit :=
  repeatWhile do
    match ← peek with
    | .finalWord => do constantDeclaration; return true
    | .classWord => do classDeclaration; return true
    | .identifier => do variableDeclaration; return true
    | .leftBrace | .endOfFile => return false
    | _ => do recoverDeclaration; return true

/-- The methods of a program. -/
def methods : Production Unit :=
  repeatWhile do
    match ← peek with
    | .identifier | .voidWord => do methodDeclaration; return true
    | .rightBrace | .endOfFile => return false
    | _ => do recoverMethod; return true

def program : Production Unit := do
  expect .programWord
  let name ← identifier
  let id ← declare .program name .none
  openScope
  declarations
  reportIf ((← read).options.maxGlobals < (← table).current.locals.size) .tooManyGlobals
  expect .leftBrace
  methods
  reportIf (← get).assembly.entry.isNone .noEntryMethod [(← read).options.entryName]
  expect .rightBrace
  let members ← closeScope
  updateEntry id fun e => { e with meaning := .program members }

/-- A whole source text. -/
def sourceFile : Production Unit := do
  advance
  program
  expect .endOfFile

end MicroJava.Production
