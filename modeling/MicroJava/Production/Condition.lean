import MicroJava.Production.Expression

/-!
# Conditions

    Condition = Conjunction { "||" Conjunction } .
    Conjunction = Test { "&&" Test } .
    Test = Expression Comparison Expression .

A condition ends in a test whose jump is left to the caller. The conjunctions share one true label.
Each has a false label of its own, which is defined where the next one starts; the last one is left
to the caller, and so is the true label.
-/

namespace MicroJava.Production

open Token

def comparisonOf? : Kind → Option Comparison
  | .equal => some .eq
  | .notEqual => some .ne
  | .less => some .lt
  | .lessEqual => some .le
  | .greater => some .gt
  | .greaterEqual => some .ge
  | _ => none

/-- A relational operator, or a report that one had to come here. -/
def comparison : Production (Option Comparison) := do
  match comparisonOf? (← peek) with
  | some c =>
    advance
    return some c
  | none =>
    report .comparisonExpected
    return none

/-- Checks the sides of a comparison. References can only be compared for being the same. -/
def checkComparison (x y : Operand) (c : Option Comparison) : Production Unit := do
  if ← comparable x.type y.type then
    let d ← descriptor x.type
    reportIf (d.isReference ∧ c ≠ some .eq ∧ c ≠ some .ne) .orderOfReferences
  else report .incompatibleTypes

/-- One comparison. -/
def test (whenTrue whenFalse : Label) : Production Branch := do
  let x ← expression
  load x
  let c ← comparison
  let y ← expression
  load y
  checkComparison x y c
  return { comparison := c.getD .eq, whenTrue, whenFalse }

/-- One more test behind `b`, which is reached only if `b` holds. -/
def conjunctionStep (whenTrue whenFalse : Label) (b : Branch) : Production (Branch ⊕ Branch) := do
  if ← check .and then
    advance
    write (Emission.jumpIfFalse b)
    return .inl (← test whenTrue whenFalse)
  else return .inr b

def conjunction (whenTrue : Label) : Production Branch := do
  let whenFalse ← write Emission.newLabel
  loop (conjunctionStep whenTrue whenFalse) (← test whenTrue whenFalse)

/-- One more conjunction behind `b`, which is reached only if `b` fails. -/
def conditionStep (whenTrue : Label) (b : Branch) : Production (Branch ⊕ Branch) := do
  if ← check .or then
    advance
    write (Emission.jumpIfTrue b)
    write (Emission.define b.whenFalse)
    return .inl (← conjunction whenTrue)
  else return .inr b

def condition : Production Branch := do
  let whenTrue ← write Emission.newLabel
  loop (conditionStep whenTrue) (← conjunction whenTrue)

end MicroJava.Production
