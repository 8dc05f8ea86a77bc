import MicroJava.Symbol.Handle

/-!
# Entries of the symbol table
-/

namespace MicroJava

/-- What is known of a method. -/
structure Method where
  /-- The address of its `enter` instruction. -/
  address : Nat := 0
  parameters : Nat := 0
  /-- The last parameter collects any number of arguments. -/
  variadic : Bool := false
  /-- The parameters, and behind them the local variables. -/
  locals : List EntryId := []
  deriving DecidableEq, Repr, Inhabited

namespace Method

/-- The number of parameters that take one argument each. -/
def fixed (m : Method) : Nat := m.parameters - m.variadic.toNat

/-- The entries of the parameters. -/
def leading (m : Method) : List EntryId := m.locals.take m.parameters

end Method

/-- What a name stands for. -/
inductive Meaning where
  | constant (value : Int32)
  /-- A variable, parameter or field: its slot, and the number of scopes around its own. -/
  | var (slot level : Nat)
  | typeName
  | method (m : Method)
  /-- The program, with the names that it declares. -/
  | program (members : List EntryId)
  deriving DecidableEq, Repr, Inhabited

/-- A declared name. -/
structure Entry where
  name : String
  type : TypeId
  meaning : Meaning
  deriving DecidableEq, Repr, Inhabited

namespace Entry

def isType (e : Entry) : Bool :=
  match e.meaning with
  | .typeName => true
  | _ => false

def method? (e : Entry) : Option Method :=
  match e.meaning with
  | .method m => some m
  | _ => none

/-- Where a variable or method is, and 0 for anything else. -/
def address (e : Entry) : Nat :=
  match e.meaning with
  | .var slot _ => slot
  | .method m => m.address
  | _ => 0

/-- The entry with its method changed, which only a method has. -/
def updateMethod (e : Entry) (f : Method → Method) : Entry :=
  match e.meaning with
  | .method m => { e with meaning := .method (f m) }
  | _ => e

end Entry

/-- How a name is declared. -/
inductive Category where
  | constant
  | var
  | typeName
  | method
  | program
  deriving DecidableEq, Repr, Inhabited

end MicroJava
