import MicroJava.Symbol.Table

/-!
# Operands

An operand is a value that the code has not loaded yet, or a place that it has not stored to yet:
its type, and where it is.
-/

namespace MicroJava

/-- Where a value is. -/
inductive Place where
  | constant (value : Int32)
  /-- A variable or parameter of the current method. -/
  | frame (slot : Nat)
  /-- A global variable. -/
  | global (slot : Nat)
  /-- The top of the expression stack. -/
  | stack
  /-- A field of the object on top of the stack. -/
  | field (slot : Nat)
  /-- An element of the array on the stack, at the index on top of it. -/
  | element
  /-- A method that is not called yet. -/
  | method (id : EntryId)
  deriving DecidableEq, Repr, Inhabited

/-- A value of a type at a place. -/
structure Operand where
  place : Place
  type : TypeId
  deriving DecidableEq, Repr, Inhabited

namespace Operand

def constant (value : Int32) (type : TypeId) : Operand := ⟨.constant value, type⟩

/-- A value on the stack. -/
def onStack (type : TypeId) : Operand := ⟨.stack, type⟩

/-- What stands in for an operand after a mistake. -/
def missing : Operand := onStack .none

/-- The operand once it has been loaded. -/
def loaded (x : Operand) : Operand := onStack x.type

/-- What a name stands for in an expression. A name that is not declared stands for a value
without a type, for which no code is needed. -/
def ofEntry (id : EntryId) (e : Entry) : Except Problem Operand :=
  if id = .none then .ok missing
  else
    match e.meaning with
    | .constant value => .ok ⟨.constant value, e.type⟩
    | .var slot level =>
      .ok ⟨if level = SymbolTable.programLevel then .global slot else .frame slot, e.type⟩
    | .method _ => .ok ⟨.method id, e.type⟩
    | .typeName | .program _ => .error .notAnOperand

/-- A place that can be stored to. -/
def isVariable (x : Operand) : Bool :=
  match x.place with
  | .frame _ | .global _ | .field _ | .element => true
  | _ => false

/-- A method that gives no value. -/
def isVoidMethod (x : Operand) : Bool :=
  match x.place with
  | .method _ => x.type = .none
  | _ => false

def constant? (x : Operand) : Option Int32 :=
  match x.place with
  | .constant value => some value
  | _ => none

/-- The operand may be stored in a place of type `target`. Besides the values of an assignable type
these are the constants of type `int` and `char`, in both ways, as long as the number is one that
16 bits can hold where a character is wanted. -/
def fits (x : Operand) (ts : Types) (target : TypeId) : Bool :=
  ts.assignable x.type target ||
    match x.constant? with
    | none => false
    | some v =>
      (x.type = .int || x.type = .char) &&
        (target = .int || (target = .char && 0 ≤ v.toInt && v.toInt ≤ 0xFFFF))

end Operand

end MicroJava
