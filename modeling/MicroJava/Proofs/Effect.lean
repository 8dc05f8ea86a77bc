import MicroJava.Proofs.Layout

/-!
# Stack effects

How many values each instruction pops from the expression stack and pushes onto it, and how the depth
of the stack changes along a listing (`Flows`). What a call does depends on the method that it calls,
and a return wants the stack to hold the value of the method and nothing else. Every jump leaves an
empty stack, which is what lets all ways to a label agree.
-/

namespace MicroJava

namespace Opcode

/-- How many values the instruction takes from the expression stack. That of a call is the number of
parameters of the method, and a return takes what the method gives. -/
def pops : Opcode → Nat
  | store | store0 | store1 | store2 | store3 | putStatic | getField | neg | newArray | arrayLength
  | pop | dup => 1
  | putField | add | sub | mul | div | rem | shl | shr | arrayLoad | charLoad | dup2 | jumpEq
  | jumpNe | jumpLt | jumpLe | jumpGt | jumpGe | print | printChar => 2
  | arrayStore | charStore => 3
  | _ => 0

/-- How many values the instruction leaves on the expression stack. -/
def pushes : Opcode → Nat
  | load | load0 | load1 | load2 | load3 | getStatic | getField | const0 | const1 | const2 | const3
  | const4 | const5 | constMinus1 | const | add | sub | mul | div | rem | neg | shl | shr | newObject
  | newArray | arrayLoad | charLoad | arrayLength | read | readChar => 1
  | dup => 2
  | dup2 => 4
  | _ => 0

theorem pushes_of_isJump {op : Opcode} (h : op.isJump) : op.pushes = 0 := by
  cases op <;> first | rfl | exact absurd h (by decide)

end Opcode

/-- The methods that code may call: their address, the number of their parameters, and whether they
give a value. -/
abbrev Callees := Nat → Nat → Bool → Prop

/-- Behind the item, the next one is executed. A call is seen as one step. -/
def Item.FallsThrough : Item → Prop
  | .plain op _ => op ≠ .ret ∧ op ≠ .trap
  | .jump .. => False
  | .call _ => True

/-- The item finds the stack `n` values deep and leaves it `n'` deep, in a method that `returns` a
value or not. -/
def Item.Effect (calls : Callees) (returns : Bool) (i : Item) (n n' : Nat) : Prop :=
  match i with
  | .plain op _ =>
    if op = .ret then n = returns.toNat ∧ n' = 0
    else op.pops ≤ n ∧ n' = n - op.pops + op.pushes
  | .jump op _ => n = op.pops ∧ n' = 0
  | .call target => ∃ p b, calls target p b ∧ p ≤ n ∧ n' = n - p + b.toNat

/-- Each item finds the stack as the one before leaves it. -/
inductive Flows (calls : Callees) (returns : Bool) : Nat → List Item → Nat → Prop where
  | nil {n : Nat} : Flows calls returns n [] n
  | cons {n n₁ n' : Nat} {i : Item} {is : List Item} :
    i.Effect calls returns n n₁ → Flows calls returns n₁ is n' → Flows calls returns n (i :: is) n'

namespace Flows

variable {calls : Callees} {returns : Bool} {n n₁ n' : Nat} {is js : List Item}

theorem append (h : Flows calls returns n is n₁) (h' : Flows calls returns n₁ js n') :
    Flows calls returns n (is ++ js) n' := by
  induction h with
  | nil => exact h'
  | cons hi _ ih => exact .cons hi (ih h')

theorem snoc (h : Flows calls returns n is n₁) {i : Item} (hi : i.Effect calls returns n₁ n') :
    Flows calls returns n (is ++ [i]) n' :=
  h.append (.cons hi .nil)

theorem mono {calls' : Callees} (hcalls : ∀ a p b, calls a p b → calls' a p b)
    (h : Flows calls returns n is n') : Flows calls' returns n is n' := by
  induction h with
  | nil => exact .nil
  | @cons n n₁ n' i is hi _ ih =>
    refine .cons ?_ ih
    cases i with
    | plain op operands => exact hi
    | jump op l => exact hi
    | call target =>
      obtain ⟨p, b, hc, hle, hn⟩ := hi
      exact ⟨p, b, hcalls _ _ _ hc, hle, hn⟩

end Flows

end MicroJava
