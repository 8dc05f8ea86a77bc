import MicroJava.Proofs.Grammar
import MicroJava.Proofs.Machine
import MicroJava.Symbol.Table

/-!
# What expressions are worth

The value of an expression without calls and creations, in the memory that the names of a symbol table are
laid out in (`Tree.Expression.value`). Operands are evaluated from left to right, numbers wrap around at 32
bits, and the sign in front of an expression belongs to its first term. The type of a designator says which
fields and which kind of elements it has.
-/

namespace MicroJava

open Tree

/-- A constant or a variable. -/
def Entry.HasValue (e : Entry) : Prop :=
  match e.meaning with
  | .constant _ | .var _ _ => True
  | _ => False

/-- The value of a constant or a variable. -/
def Entry.value (e : Entry) (m : Memory) : Computation Int32 :=
  match e.meaning with
  | .constant v => return v
  | .var slot level => return if level = SymbolTable.programLevel then m.statics slot else m.locals slot
  | _ => throw .stuck

/-- The slots that are used for the value. -/
def Entry.slots (e : Entry) : List Nat :=
  match e.meaning with
  | .var slot _ => [slot]
  | _ => []

/-- An element of an array, where the elements are of the given type. -/
def Memory.element (m : Memory) (type : TypeId) : (array index : Int32) → Computation Int32 :=
  if type = .char then m.character else m.word

namespace SymbolTable

variable (t : SymbolTable)

/-- The entry that a name stands for. -/
def named? (name : String) : Option Entry := (t.lookup? name).bind t.entryAt?

/-- The entry of the field of a type with a given name. -/
def field? (type : TypeId) (name : String) : Option Entry :=
  (t.findField name type).toOption.bind t.entryAt?

end SymbolTable

namespace Tree

/-- The type of what a designator stands for, and no type if it stands for nothing. -/
def Designator.type (t : SymbolTable) : Designator → TypeId
  | .name n => (t.named? n).elim .none (·.type)
  | .field d n => (t.field? (d.type t) n).elim .none (·.type)
  | .element d _ => t.types.element (d.type t)

def Adding.apply (x y : Int32) : Adding → Int32
  | plus => x + y
  | minus => x - y

def Multiplying.apply (x y : Int32) : Multiplying → Computation Int32
  | times => return x * y
  | slash => Computation.divide x y
  | percent => Computation.remainder x y

section

variable (t : SymbolTable) (m : Memory)

mutual

/-- The value of an expression. -/
def Expression.value : Expression → Computation Int32
  | .term x => x.value
  | .negated x => return -(← x.value)
  | .sum e o x => return o.apply (← e.value) (← x.value)

def Term.value : Term → Computation Int32
  | .factor f => f.value
  | .product x o f => do o.apply (← x.value) (← f.value)

def Factor.value : Factor → Computation Int32
  | .designator d => d.value
  | .number v | .character v => return v
  | .parentheses e => e.value
  | .call _ _ | .object _ | .array _ _ => throw .stuck

def Designator.value : Designator → Computation Int32
  | .name n => (t.named? n).elim (throw .stuck) (·.value m)
  | .field d n => do m.field (← d.value) ((t.field? (d.type t) n).elim 0 (·.address))
  | .element d e => do m.element (t.types.element (d.type t)) (← d.value) (← e.value)

end

end

mutual

/-- The expression has no calls and creations in it, and its names stand for constants and variables. -/
def Expression.IsPlain (t : SymbolTable) : Expression → Prop
  | .term x => x.IsPlain t
  | .negated x => x.IsPlain t
  | .sum e _ x => e.IsPlain t ∧ x.IsPlain t

def Term.IsPlain (t : SymbolTable) : Term → Prop
  | .factor f => f.IsPlain t
  | .product x _ f => x.IsPlain t ∧ f.IsPlain t

def Factor.IsPlain (t : SymbolTable) : Factor → Prop
  | .designator d => d.IsPlain t
  | .number _ | .character _ => True
  | .parentheses e => e.IsPlain t
  | .call _ _ | .object _ | .array _ _ => False

def Designator.IsPlain (t : SymbolTable) : Designator → Prop
  | .name n => (t.named? n).elim False Entry.HasValue
  | .field d _ => d.IsPlain t
  | .element d e => d.IsPlain t ∧ e.IsPlain t

end

mutual

/-- The slots of the variables and fields that an expression uses. -/
def Expression.slots (t : SymbolTable) : Expression → List Nat
  | .term x => x.slots t
  | .negated x => x.slots t
  | .sum e _ x => e.slots t ++ x.slots t

def Term.slots (t : SymbolTable) : Term → List Nat
  | .factor f => f.slots t
  | .product x _ f => x.slots t ++ f.slots t

def Factor.slots (t : SymbolTable) : Factor → List Nat
  | .designator d => d.slots t
  | .parentheses e => e.slots t
  | _ => []

def Designator.slots (t : SymbolTable) : Designator → List Nat
  | .name n => (t.named? n).elim [] Entry.slots
  | .field d n => d.slots t ++ [(t.field? (d.type t) n).elim 0 (·.address)]
  | .element d e => d.slots t ++ e.slots t

end

end Tree

end MicroJava
