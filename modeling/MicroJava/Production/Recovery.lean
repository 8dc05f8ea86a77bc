import MicroJava.Production.Basic

/-!
# Finding the place again

Where no declaration, method or statement starts with the next token, one mistake is reported and
tokens are skipped up to one at which reading can go on. The mistakes that follow from the same
cause stay quiet, because the distance to the last report starts again from there.
-/

namespace MicroJava.Production

open Token

/-- The tokens at which the declarations of a program can go on. -/
def declarationStops : KindSet := .ofList [.finalWord, .classWord, .leftBrace, .endOfFile]

/-- The tokens at which the methods of a program can go on. -/
def methodStops : KindSet := .ofList [.identifier, .voidWord, .rightBrace, .endOfFile]

/-- The tokens at which statements can go on. -/
def statementStops : KindSet :=
  .ofList [.ifWord, .whileWord, .breakWord, .returnWord, .readWord, .printWord, .semicolon,
    .rightBrace, .endOfFile]

/-- Skips the next token, and more until a place is found. -/
def skipUntil (found : Production Bool) : Production Unit :=
  repeatWhile do
    advance
    return !(← found)

/-- The next token is the name of a type. -/
def atTypeName : Production Bool := do
  let t := (← get).current
  if t.kind ≠ .identifier then return false
  match (← table).lookup? t.name with
  | none => return false
  | some id => return (← entry id).isType

/-- Skips to the next declaration of the program: to a word that starts one, to a type name, to the
methods, or just behind a semicolon. -/
def recoverDeclaration : Production Unit := do
  report .invalidDeclaration
  skipUntil do
    if ← checkAny declarationStops then return true
    if (← get).previous.kind = .semicolon then return true
    atTypeName
  resume

/-- Skips to the next method. -/
def recoverMethod : Production Unit := do
  report .invalidMethod
  skipUntil (checkAny methodStops)
  resume

/-- Skips to the next statement or the end of the block, or just behind a semicolon. -/
def recoverStatement : Production Unit := do
  report .invalidStatement
  skipUntil (checkAny statementStops)
  takeIf .semicolon
  resume

end MicroJava.Production
