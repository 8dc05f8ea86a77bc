import MicroJava.Token.KindSet
import MicroJava.Production.Session

/-!
# Productions

A `Production` reads a part of the program from a session. It checks what it reads, writes the code
for it, and gives what the production around it has to know. It reports mistakes to the journal and
goes on, and stops only at a fault, which leaves the session as it was there.

Every turn of a loop and every nested production takes a token, so a bound on the number of tokens
bounds both. Beyond it, `loop` and the nested productions give up with the fault `stalled`.
-/

namespace MicroJava

/-- What stays the same during a compilation. -/
structure Setting where
  options : Options
  /-- More than the number of tokens. -/
  bound : Nat

/-- Reads a part of the program. -/
abbrev Production (α : Type) := ReaderT Setting (ExceptT Fault (StateM Session)) α

namespace Production

variable {α β : Type}

/-! ### Tokens and reports -/

def advance : Production Unit := modify (·.advance)

/-- The kind of the next token. -/
def peek : Production Token.Kind := return (← get).current.kind

/-- The next token is of this kind. -/
def check (k : Token.Kind) : Production Bool := return (← peek) = k

/-- The next token is of one of these kinds. -/
def checkAny (kinds : Token.KindSet) : Production Bool := return kinds.contains (← peek)

/-- Reports a mistake at the next token. -/
def report (p : Problem) (details : List String := []) : Production Unit := do
  let least := (← read).options.reportDistance
  modify (·.report least p details)

/-- Reports a mistake at the next token, if there is one. -/
def reportIf (mistake : Prop) [Decidable mistake] (p : Problem) (details : List String := []) :
    Production Unit :=
  if mistake then report p details else return ()

/-- Marks a place at which reading goes on after skipping tokens. -/
def resume : Production Unit := modify (·.resume)

/-- Takes a token of this kind, or reports that it had to come here. -/
def expect (k : Token.Kind) : Production Unit := do
  if ← check k then advance else report .tokenExpected [k.label]

/-- Takes a token of this kind, if one comes next. -/
def takeIf (k : Token.Kind) : Production Unit := do
  if ← check k then advance

/-- Takes a name, or reports that one had to come here and gives the empty name. -/
def identifier : Production String := do
  if ← check .identifier then
    advance
    return (← get).previous.name
  else
    report .tokenExpected [Token.Kind.identifier.label]
    return ""

/-- Takes the literal that comes next. -/
def literal : Production Int32 := do
  advance
  return (← get).previous.literal

/-! ### Loops -/

/-- Repeats a step until it gives a result, at most as often as the number says. -/
def iterate (body : α → Production (α ⊕ β)) : Nat → α → Production β
  | 0, _ => throw .stalled
  | n + 1, a => do
    match ← body a with
    | .inl a => iterate body n a
    | .inr b => return b

/-- Repeats a step until it gives a result. Each turn but the last takes a token. -/
def loop (body : α → Production (α ⊕ β)) (a : α) : Production β := do
  iterate body (← read).bound a

/-- Repeats a step as long as it says so. Each turn but the last takes a token. -/
def repeatWhile (body : Production Bool) : Production Unit :=
  loop (fun _ => return if ← body then .inl () else .inr ()) ()

/-! ### Symbols -/

/-- The symbol table. -/
def table : Production SymbolTable := return (← get).table

/-- Changes the symbol table. -/
def updateTable (f : SymbolTable → SymbolTable) : Production Unit :=
  modifyGet (·.withTable fun t => ((), f t))

/-- The entry of a handle. -/
def entry (id : EntryId) : Production Entry := do
  match (← table).entryAt? id with
  | some e => return e
  | none => throw (.unknownEntry id)

/-- The descriptor of a type. -/
def descriptor (t : TypeId) : Production Descriptor := do
  match (← table).types.descriptor? t with
  | some d => return d
  | none => throw (.unknownType t)

/-- Declares a name, unless it is declared already. The empty name, which a mistake leaves behind,
is not declared. -/
def declare (category : Category) (name : String) (type : TypeId) : Production EntryId := do
  if name = "" then return .none
  match ← modifyGet (·.withTable (·.declare category name type)) with
  | .ok id => return id
  | .error p =>
    report p [name]
    return .none

/-- The entry that a name stands for. The empty name, which a mistake leaves behind, stands for
none. -/
def find (name : String) : Production EntryId := do
  if name = "" then return .none
  match (← table).find name with
  | .ok id => return id
  | .error p =>
    report p [name]
    return .none

/-- The field of a class with a given name. -/
def findField (name : String) (type : TypeId) : Production EntryId := do
  match (← table).findField name type with
  | .ok id => return id
  | .error p =>
    report p [name]
    return .none

/-- Changes an entry, unless it stands for no name. -/
def updateEntry (id : EntryId) (f : Entry → Entry) : Production Unit := updateTable (·.update id f)

/-- A new array type. -/
def arrayOf (element : TypeId) : Production TypeId :=
  modifyGet (·.withTable (·.arrayOf element))

def openScope : Production Unit := updateTable (·.openScope)

/-- Closes the innermost scope and gives the entries that it declared. -/
def closeScope : Production (List EntryId) := modifyGet (·.withTable (·.closeScope))

/-! ### Code -/

/-- Writes code. -/
def write (e : Emission Fault α) : Production α := do
  match ← modifyGet (·.withAssembly e.run.run) with
  | .ok a => return a
  | .error f => throw f

/-- Writes code, and reports the mistake if the operand does not allow it. -/
def attempt (e : Emission Problem Unit) : Production Unit := do
  match ← modifyGet (·.withAssembly e.run.run) with
  | .ok () => return ()
  | .error p => report p

/-- Writes an instruction. -/
def emit (op : Opcode) (operands : List Int := []) : Production Unit :=
  write (Emission.emit op operands)

/-- Loads an operand. -/
def load (x : Operand) : Production Unit := attempt (Emission.load x)

/-! ### Types -/

/-- The type that is named next, and no type after a mistake. -/
def namedType : Production TypeId := do
  let name ← identifier
  let id ← find name
  let e ← entry id
  if e.isType then return e.type
  reportIf (id ≠ .none) .notAType
  return .none

/-- A type that is named next, or the type of its arrays. -/
def type : Production TypeId := do
  let t ← namedType
  if ← check .leftBracket then
    advance
    expect .rightBracket
    arrayOf t
  else return t

/-- An operand may be stored in a place of this type. -/
def fits (x : Operand) (target : TypeId) : Production Bool := do
  discard (descriptor x.type)
  discard (descriptor target)
  return x.fits (← table).types target

/-- Values of two types may be compared. -/
def comparable (a b : TypeId) : Production Bool := do
  discard (descriptor a)
  discard (descriptor b)
  return (← table).types.comparable a b

end Production

end MicroJava
