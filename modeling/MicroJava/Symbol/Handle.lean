/-!
# Handles

Entries of the symbol table and type descriptors live in arenas and are named by their index.
-/

namespace MicroJava

/-- The index of a type descriptor. -/
structure TypeId where
  index : Nat
  deriving DecidableEq, Repr, Inhabited

namespace TypeId

/-- The type of what is wrong or missing, and of a void method's result. -/
def none : TypeId := ⟨0⟩

/-- The type `int`. -/
def int : TypeId := ⟨1⟩

/-- The type `char`. -/
def char : TypeId := ⟨2⟩

/-- The type of `null`, a class without fields. -/
def null : TypeId := ⟨3⟩

end TypeId

/-- The index of an entry. -/
structure EntryId where
  index : Nat
  deriving DecidableEq, Repr, Inhabited

namespace EntryId

/-- The entry that stands for a name which is not declared, or could not be. -/
def none : EntryId := ⟨0⟩

end EntryId

end MicroJava
