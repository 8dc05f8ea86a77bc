import MicroJava.Symbol.Handle

/-!
# Types

Types are descriptors in an arena. A class equals only itself; arrays are equal when their element
types are, although each use of brackets makes a descriptor of its own. An element type is always
older than its array, which is what makes the comparison end.
-/

namespace MicroJava

/-- What a type is. -/
inductive Descriptor where
  | none
  | int
  | char
  | array (element : TypeId)
  /-- A class with its fields in the order of their declaration. -/
  | object (fields : List EntryId)
  deriving DecidableEq, Repr, Inhabited

namespace Descriptor

/-- The fields of a class, and none for any other type. -/
def fields : Descriptor → List EntryId
  | object fields => fields
  | _ => []

/-- The element type of an array, and no type for any other type. -/
def element : Descriptor → TypeId
  | array element => element
  | _ => .none

def isClass : Descriptor → Bool
  | object _ => true
  | _ => false

def isArray : Descriptor → Bool
  | array _ => true
  | _ => false

/-- Objects and arrays are handled by reference. -/
def isReference (d : Descriptor) : Bool := d.isClass || d.isArray

end Descriptor

/-- The arena of descriptors. -/
structure Types where
  descriptors : Array Descriptor
  deriving DecidableEq, Inhabited

namespace Types

/-- The types that need no declaration. -/
def initial : Types := ⟨#[.none, .int, .char, .object []]⟩

def descriptor? (ts : Types) (t : TypeId) : Option Descriptor := ts.descriptors[t.index]?

/-- The handle that the next new type gets. -/
def fresh (ts : Types) : TypeId := ⟨ts.descriptors.size⟩

/-- A new array type. -/
def arrayOf (ts : Types) (element : TypeId) : TypeId × Types :=
  (ts.fresh, ⟨ts.descriptors.push (.array element)⟩)

/-- A new class without fields. -/
def newClass (ts : Types) : TypeId × Types := (ts.fresh, ⟨ts.descriptors.push (.object [])⟩)

/-- Gives a class its fields. The class of `null` keeps having none, and no other type has any. -/
def setFields (ts : Types) (t : TypeId) (fields : List EntryId) : Types :=
  if t = .null then ts
  else ⟨ts.descriptors.modify t.index fun
    | .object _ => .object fields
    | d => d⟩

def fields (ts : Types) (t : TypeId) : List EntryId :=
  (ts.descriptor? t).elim [] Descriptor.fields

def element (ts : Types) (t : TypeId) : TypeId := (ts.descriptor? t).elim .none Descriptor.element

def isClass (ts : Types) (t : TypeId) : Bool := (ts.descriptor? t).any Descriptor.isClass

def isArray (ts : Types) (t : TypeId) : Bool := (ts.descriptor? t).any Descriptor.isArray

def isReference (ts : Types) (t : TypeId) : Bool := (ts.descriptor? t).any Descriptor.isReference

/-- Arrays are the same type when their elements are; any other type is the same only as itself. -/
def same (ts : Types) (a b : TypeId) : Bool :=
  match ts.descriptor? a, ts.descriptor? b with
  | some (.array x), some (.array y) => if x.index < a.index then same ts x y else a = b
  | _, _ => a = b
  termination_by a.index

/-- Two values of these types may be compared. -/
def comparable (ts : Types) (a b : TypeId) : Bool :=
  ts.same a b || (a = .null && ts.isReference b) || (b = .null && ts.isReference a)

/-- A value of type `source` may be stored in a place of type `target`. Any array may be stored
where an array of no type is wanted, which is what `len` wants. -/
def assignable (ts : Types) (source target : TypeId) : Bool :=
  ts.same source target || (source = .null && ts.isReference target) ||
    (ts.isArray source && ts.isArray target && ts.element target = .none)

end Types

end MicroJava
