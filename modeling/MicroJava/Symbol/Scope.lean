import Std.Data.TreeMap
import MicroJava.Symbol.Handle

/-!
# Scopes

The names that one scope declares, each at most once, in the order of their declaration.
-/

namespace MicroJava

/-- One scope. -/
structure Scope where
  names : Std.TreeMap String EntryId := ∅
  /-- The declared entries in order. -/
  locals : Array EntryId := #[]
  /-- How many of them are variables, which is also the next free slot. -/
  variableCount : Nat := 0
  deriving Inhabited

namespace Scope

/-- A scope that declares nothing. -/
def empty : Scope := {}

def find? (s : Scope) (name : String) : Option EntryId := s.names[name]?

/-- Binds a name that the scope does not bind yet. -/
def insert (s : Scope) (name : String) (id : EntryId) (isVariable : Bool) : Scope where
  names := s.names.insert name id
  locals := s.locals.push id
  variableCount := if isVariable then s.variableCount + 1 else s.variableCount

@[simp] theorem find?_empty (name : String) : empty.find? name = none := by
  simp [find?, empty]

theorem find?_insert (s : Scope) (name name' : String) (id : EntryId) (b : Bool) :
    (s.insert name id b).find? name' = if name = name' then some id else s.find? name' := by
  simp [find?, insert, Std.TreeMap.getElem?_insert]

@[simp] theorem locals_insert (s : Scope) (name : String) (id : EntryId) (b : Bool) :
    (s.insert name id b).locals = s.locals.push id := rfl

end Scope

end MicroJava
