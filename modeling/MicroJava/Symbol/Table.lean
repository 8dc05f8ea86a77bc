import MicroJava.Problem
import MicroJava.Symbol.Entry
import MicroJava.Symbol.Scope
import MicroJava.Symbol.Types

/-!
# The symbol table

The table holds the entries and types of a compilation, and the scopes that are open. The outermost
scope, the universe, declares the names of the language and is always open. The declarations of the
program are one level further in, and the members of classes and methods two.
-/

namespace MicroJava

/-- The predeclared methods. They need no call: they are compiled to at most one instruction. -/
inductive Builtin where
  /-- The character with a given number. -/
  | chr
  /-- The number of a given character. -/
  | ord
  /-- The length of a given array. -/
  | len
  deriving DecidableEq, Repr, Inhabited

namespace Builtin

def name : Builtin → String
  | chr => "chr"
  | ord => "ord"
  | len => "len"

/-- The entry of the method, which stands behind that of its parameter. -/
def id : Builtin → EntryId
  | chr => ⟨5⟩
  | ord => ⟨7⟩
  | len => ⟨9⟩

/-- The predeclared method that an entry is. -/
def ofId? (id : EntryId) : Option Builtin := [chr, ord, len].find? fun b => b.id = id

theorem ofId?_id (b : Builtin) : ofId? b.id = some b := by cases b <;> rfl

end Builtin

/-- Entries, types, and the open scopes. -/
structure SymbolTable where
  entries : Array Entry
  types : Types
  /-- The open scopes inside the universe, the innermost first. -/
  inner : List Scope := []
  outermost : Scope := .empty
  deriving Inhabited

namespace SymbolTable

/-- The level at which the program's own declarations stand. -/
def programLevel : Nat := 1

/-- How many scopes are open inside the universe. -/
def level (t : SymbolTable) : Nat := t.inner.length

/-- The innermost scope. -/
def current (t : SymbolTable) : Scope := t.inner.headD t.outermost

def entryAt? (t : SymbolTable) (id : EntryId) : Option Entry := t.entries[id.index]?

def updateCurrent (t : SymbolTable) (f : Scope → Scope) : SymbolTable :=
  match t with
  | ⟨entries, types, [], outermost⟩ => ⟨entries, types, [], f outermost⟩
  | ⟨entries, types, s :: outer, outermost⟩ => ⟨entries, types, f s :: outer, outermost⟩

/-- An entry that may be changed: any but the one that stands for no name. -/
def changeable (t : SymbolTable) (id : EntryId) : Bool := id ≠ .none && id.index < t.entries.size

/-- Changes an entry, if it may be changed. -/
def update (t : SymbolTable) (id : EntryId) (f : Entry → Entry) : SymbolTable :=
  if t.changeable id then { t with entries := t.entries.modify id.index f } else t

/-- A new entry that no scope binds. -/
def allocate (t : SymbolTable) (e : Entry) : EntryId × SymbolTable :=
  (⟨t.entries.size⟩, { t with entries := t.entries.push e })

/-- A new entry under its name in the innermost scope. -/
def bind (t : SymbolTable) (e : Entry) : EntryId × SymbolTable :=
  let isVariable := match e.meaning with
    | .var .. => true
    | _ => false
  let name := e.name
  let (id, t) := t.allocate e
  (id, t.updateCurrent (·.insert name id isVariable))

/-- A predeclared method with one parameter. -/
def bindBuiltin (t : SymbolTable) (name : String) (type : TypeId) (parameter : String)
    (parameterType : TypeId) : SymbolTable :=
  let (id, t) := t.allocate ⟨parameter, parameterType, .var 0 t.level⟩
  (t.bind ⟨name, type, .method { parameters := 1, locals := [id] }⟩).2

/-- The table that knows only the names of the language. -/
def initial : SymbolTable :=
  let (anyArray, types) := Types.initial.arrayOf .none
  let t : SymbolTable := { entries := #[⟨"$none", .none, .var 0 0⟩], types }
  let t := (t.bind ⟨"int", .int, .typeName⟩).2
  let t := (t.bind ⟨"char", .char, .typeName⟩).2
  let t := (t.bind ⟨"null", .null, .constant 0⟩).2
  let t := t.bindBuiltin "chr" .char "i" .int
  let t := t.bindBuiltin "ord" .int "ch" .char
  t.bindBuiltin "len" .int "arr" anyArray

def openScope (t : SymbolTable) : SymbolTable := { t with inner := .empty :: t.inner }

/-- Closes the innermost scope and gives the entries that it declared. The universe stays open. -/
def closeScope (t : SymbolTable) : List EntryId × SymbolTable :=
  match t with
  | ⟨entries, types, [], outermost⟩ => ([], ⟨entries, types, [], outermost⟩)
  | ⟨entries, types, s :: outer, outermost⟩ => (s.locals.toList, ⟨entries, types, outer, outermost⟩)

/-- What a new name stands for: a variable gets the next slot of the innermost scope. -/
def meaningOf (t : SymbolTable) : Category → Meaning
  | .constant => .constant 0
  | .var => .var t.current.variableCount t.level
  | .typeName => .typeName
  | .method => .method {}
  | .program => .program []

/-- Declares a name in the innermost scope, unless that scope declares it already. -/
def declare (t : SymbolTable) (category : Category) (name : String) (type : TypeId) :
    Except Problem EntryId × SymbolTable :=
  if (t.current.find? name).isSome then (.error .alreadyDeclared, t)
  else
    let meaning := t.meaningOf category
    let (id, t) := t.bind ⟨name, type, meaning⟩
    (.ok id, t)

/-- The entry that a name stands for, in the innermost scope that declares it. -/
def lookup? (t : SymbolTable) (name : String) : Option EntryId :=
  (t.inner.findSome? (·.find? name)).or (t.outermost.find? name)

def find (t : SymbolTable) (name : String) : Except Problem EntryId :=
  match t.lookup? name with
  | some id => .ok id
  | none => .error .notFound

/-- The field of a class with a given name. -/
def findField (t : SymbolTable) (name : String) (type : TypeId) : Except Problem EntryId :=
  match (t.types.fields type).find? fun id => (t.entryAt? id).any (·.name == name) with
  | some id => .ok id
  | none => .error .notAField

/-- A new array type. -/
def arrayOf (t : SymbolTable) (element : TypeId) : TypeId × SymbolTable :=
  let (id, types) := t.types.arrayOf element
  (id, { t with types })

/-- A new class type without fields. -/
def newClass (t : SymbolTable) : TypeId × SymbolTable :=
  let (id, types) := t.types.newClass
  (id, { t with types })

/-- Gives a class its fields. -/
def setFields (t : SymbolTable) (type : TypeId) (fields : List EntryId) : SymbolTable :=
  { t with types := t.types.setFields type fields }

theorem lookup?_initial (b : Builtin) : initial.lookup? b.name = some b.id := by
  cases b <;> decide

end SymbolTable

end MicroJava
