import MicroJava.Production.Declaration
import MicroJava.Production.Statement

/-!
# Methods

    Method     = ( Type | "void" ) name "(" [ Parameters ] ")" { Variables } Block .
    Parameters = Type name { "," Type name } [ "..." ] .

A method is declared before its parameters, its parameters are known before its variables, and its
address before its block, so that it can call itself.
-/

namespace MicroJava.Production

open Token

/-- One parameter. The last one says whether it collects variable arguments; its type is then that
of their array. -/
def parameter (_ : Unit) : Production (Unit ⊕ Bool) := do
  let t ← type
  let name ← identifier
  let id ← declare .var name t
  if ← check .ellipsis then
    advance
    let array ← arrayOf t
    updateEntry id fun e => { e with type := array }
    return .inr true
  if ← check .comma then
    advance
    return .inl ()
  return .inr false

/-- The parameters of a method, and whether the last collects variable arguments. -/
def parameters : Production Bool := do
  if ← check .identifier then loop parameter () else return false

/-- The type of a method's value. -/
def resultType : Production TypeId := do
  if ← check .voidWord then
    advance
    return .none
  else type

/-- Changes what is known of a method, if it could be declared. -/
def updateMethod (id : EntryId) (f : Method → Method) : Production Unit :=
  updateEntry id (·.updateMethod f)

def setReturnType (t : TypeId) : Production Unit := modify fun s => { s with returnType := t }

/-- The parameters of a method up to the closing parenthesis. They are known before the block, so
that calls in it can be checked. Gives their number. -/
def header (id : EntryId) : Production Nat := do
  expect .leftParen
  let variadic ← parameters
  expect .rightParen
  let scope := (← table).current
  let count := scope.variableCount
  updateMethod id fun m => { m with parameters := count, variadic, locals := scope.locals.toList }
  return count

/-- The instructions that end a method: those of a value method are reached only where it returns
no value. -/
def ending (t : TypeId) : Production Unit := do
  if t = .none then
    emit .exit
    emit .ret
  else emit .trap [1]

/-- Starts the code of a method, and lets the program start there if it is the entry method. -/
def beginning (id : EntryId) (isEntry : Bool) (parameters size : Nat) : Production Unit := do
  let address ← write Emission.here
  updateMethod id fun m => { m with address }
  write (if isEntry then Emission.setEntry address else return ())
  write (Emission.enter parameters size)

/-- The variables and the code of a method of type `t`. -/
def methodBody (id : EntryId) (isEntry : Bool) (t : TypeId) (parameters : Nat) :
    Production Unit := do
  variableDeclarations
  let size := (← table).current.variableCount
  reportIf ((← read).options.maxLocals < size) .tooManyLocals
  beginning id isEntry parameters size
  block
  ending t

def methodDeclaration : Production Unit := do
  let t ← resultType
  let name ← identifier
  let id ← declare .method name t
  setReturnType t
  openScope
  let parameters ← header id
  let isEntry : Bool := id ≠ .none ∧ name = (← read).options.entryName
  reportIf (isEntry ∧ 0 < parameters) .entryHasParameters
  reportIf (isEntry ∧ t ≠ .none) .entryNotVoid
  methodBody id isEntry t parameters
  let locals ← closeScope
  updateMethod id fun m => { m with locals }
  setReturnType .none

end MicroJava.Production
