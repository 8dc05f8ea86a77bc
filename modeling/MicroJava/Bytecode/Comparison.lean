import MicroJava.Bytecode.Opcode

/-!
# Comparisons

The six relational operators, and the jumps that are taken when they hold.
-/

namespace MicroJava

/-- A relation between two values. -/
inductive Comparison where
  | eq
  | ne
  | lt
  | le
  | gt
  | ge
  deriving DecidableEq, Repr, Inhabited

namespace Comparison

/-- The comparison that holds exactly when this one does not. -/
def inverse : Comparison → Comparison
  | eq => ne
  | ne => eq
  | lt => ge
  | le => gt
  | gt => le
  | ge => lt

/-- The jump that is taken when the comparison holds. -/
def jump : Comparison → Opcode
  | eq => .jumpEq
  | ne => .jumpNe
  | lt => .jumpLt
  | le => .jumpLe
  | gt => .jumpGt
  | ge => .jumpGe

@[simp] theorem inverse_inverse (c : Comparison) : c.inverse.inverse = c := by cases c <;> rfl

end Comparison

end MicroJava
