import MicroJava.Proofs.Checking

/-!
# One token of lookahead

Which tokens a tree starts with, and which tokens may follow it where it is read to its end: behind a
designator there is no dot and no bracket, behind a term no operator that multiplies, and so on.
-/

namespace MicroJava

open Tree

/-! ### Where trees start and end -/

/-- A designator ends in front of a token of this kind. -/
def Token.Kind.EndsDesignator (k : Token.Kind) : Prop := k ≠ .dot ∧ k ≠ .leftBracket

def Token.Kind.EndsFactor (k : Token.Kind) : Prop := k.EndsDesignator ∧ k ≠ .leftParen

def Token.Kind.EndsTerm (k : Token.Kind) : Prop :=
  k.EndsFactor ∧ Production.multiplying? k = none

def Token.Kind.EndsExpression (k : Token.Kind) : Prop :=
  k.EndsTerm ∧ Production.adding? k = none

def Token.Kind.EndsMember (k : Token.Kind) : Prop := k.EndsExpression ∧ k ≠ .comma

instance (k : Token.Kind) : Decidable k.EndsDesignator := by
  unfold Token.Kind.EndsDesignator
  infer_instance

instance (k : Token.Kind) : Decidable k.EndsFactor := by
  unfold Token.Kind.EndsFactor
  infer_instance

instance (k : Token.Kind) : Decidable k.EndsTerm := by
  unfold Token.Kind.EndsTerm
  infer_instance

instance (k : Token.Kind) : Decidable k.EndsExpression := by
  unfold Token.Kind.EndsExpression
  infer_instance

instance (k : Token.Kind) : Decidable k.EndsMember := by
  unfold Token.Kind.EndsMember
  infer_instance

/-- The instruction of the operator. -/
def Tree.Multiplying.opcode : Multiplying → Opcode
  | times => .mul
  | slash => .div
  | percent => .rem

def Tree.Adding.opcode : Adding → Opcode
  | plus => .add
  | minus => .sub

theorem Tree.Multiplying.multiplying?_kind (o : Multiplying) :
    Production.multiplying? o.kind = some o.opcode := by
  cases o <;> rfl

theorem Tree.Adding.adding?_kind (o : Adding) : Production.adding? o.kind = some o.opcode := by
  cases o <;> rfl

theorem Tree.Multiplying.endsFactor (o : Multiplying) : o.kind.EndsFactor := by
  cases o <;> decide

theorem Tree.Adding.endsTerm (o : Adding) : o.kind.EndsTerm := by
  cases o <;> decide

theorem Tree.Designator.nextKind_yield :
    ∀ (d : Designator) (rest : List Terminal), nextKind (d.yield ++ rest) = .identifier
  | .name n, _ => rfl
  | .field d n, rest => by
    rw [Designator.yield, List.append_assoc]
    exact nextKind_yield d _
  | .element d e, rest => by
    rw [Designator.yield, List.append_assoc]
    exact nextKind_yield d _

theorem Tree.Arguments.nextKind_yield (as : Arguments) (rest : List Terminal) :
    nextKind (as.yield ++ rest) = .leftParen := by
  cases as <;> rfl

theorem Tree.Assigning.endsDesignator (o : Assigning) : o.kind.EndsDesignator := by
  rcases o with _ | (_ | _) | (_ | _ | _) <;> decide

/-- The tokens that start a factor. -/
def factorStarts : List Token.Kind := [.identifier, .number, .character, .newWord, .leftParen]

theorem Tree.Factor.nextKind_yield (f : Factor) (rest : List Terminal) :
    nextKind (f.yield ++ rest) ∈ factorStarts := by
  cases f with
  | designator d => simp [Factor.yield, d.nextKind_yield, factorStarts]
  | call d as => simp [Factor.yield, d.nextKind_yield, factorStarts]
  | _ => simp [Factor.yield, factorStarts, Terminal.kind]

theorem Tree.Term.nextKind_yield :
    ∀ (t : Term) (rest : List Terminal), nextKind (t.yield ++ rest) ∈ factorStarts
  | .factor f, rest => f.nextKind_yield rest
  | .product t o f, rest => by
    rw [Term.yield, List.append_assoc]
    exact nextKind_yield t _

theorem Tree.Term.nextKind_ne (t : Term) (rest : List Terminal) :
    nextKind (t.yield ++ rest) ≠ .minus := by
  intro h
  have hmem := t.nextKind_yield rest
  rw [h] at hmem
  exact absurd hmem (by decide)

theorem Tree.Expression.nextKind_yield :
    ∀ (e : Expression) (rest : List Terminal),
      Production.expressionStarts.contains (nextKind (e.yield ++ rest)) = true
  | .term t, rest => by
    have hstarts : ∀ k ∈ factorStarts, Production.expressionStarts.contains k = true := by decide
    exact hstarts _ (t.nextKind_yield rest)
  | .negated t, rest => by
    have hminus : Production.expressionStarts.contains .minus = true := by decide
    exact hminus
  | .sum e o t, rest => by
    rw [Expression.yield, List.append_assoc]
    exact nextKind_yield e _

/-- A list of arguments ends in front of a token of this kind. -/
def Token.Kind.EndsList (k : Token.Kind) : Prop := k = .rightParen ∨ k = .hash

theorem Token.Kind.EndsList.endsMember {k : Token.Kind} (h : k.EndsList) : k.EndsMember := by
  rcases h with rfl | rfl <;> decide

/-- Each member of the list is as wanted at its place, counted from the given number. -/
def Tree.Expressions.Each (R : Nat → Expression → Prop) : Nat → Expressions → Prop
  | _, .nil => True
  | n, .cons e es => R n e ∧ es.Each R (n + 1)

theorem Tree.Expressions.Each.imp {R R' : Nat → Expression → Prop} (h : ∀ n e, R n e → R' n e) :
    ∀ {es : Expressions} {n : Nat}, es.Each R n → es.Each R' n
  | .nil, _, _ => trivial
  | .cons _ _, _, ⟨he, hes⟩ => ⟨h _ _ he, hes.imp h⟩

def Tree.Expressions.length : Expressions → Nat
  | .nil => 0
  | .cons _ es => es.length + 1

theorem Comparison.comparisonOf?_kind (o : Comparison) :
    Production.comparisonOf? o.kind = some o := by
  cases o <;> rfl

theorem Comparison.endsExpression (o : Comparison) : o.kind.EndsExpression := by
  cases o <;> decide

/-- A conjunction ends in front of a token of this kind. -/
def Token.Kind.EndsConjunction (k : Token.Kind) : Prop := k = .rightParen ∨ k = .or

theorem Token.Kind.EndsConjunction.endsExpression {k : Token.Kind} (h : k.EndsConjunction) :
    k.EndsExpression := by
  rcases h with rfl | rfl <;> decide

theorem Token.Kind.EndsConjunction.ne_and {k : Token.Kind} (h : k.EndsConjunction) :
    k ≠ .and := by
  rcases h with rfl | rfl <;> decide

/-- The tokens that start a statement. -/
def statementStarts : List Token.Kind :=
  [.identifier, .ifWord, .whileWord, .breakWord, .returnWord, .readWord, .printWord, .leftBrace,
    .semicolon]

theorem Tree.Statement.nextKind_yield (x : Statement) (rest : List Terminal) :
    nextKind (x.yield ++ rest) ∈ statementStarts := by
  cases x with
  | assign d | call d | increment d | decrement d =>
    simp [Statement.yield, d.nextKind_yield, statementStarts]
  | _ => simp [Statement.yield, statementStarts, Terminal.kind]

/-- The statement ends in front of a token of this kind. -/
def Tree.Statement.Before (x : Statement) (k : Token.Kind) : Prop := x.EndsOpen → k ≠ .elseWord

theorem Tree.Statement.before_statements (x : Statement) :
    ∀ (xs : Statements) (rest : List Terminal), nextKind rest = .rightBrace →
      x.Before (nextKind (xs.yield ++ rest))
  | .nil, rest, h, _ => by
    rw [Statements.yield, List.nil_append, h]
    decide
  | .cons y ys, rest, _, _ => by
    have hne : ∀ k ∈ statementStarts, k ≠ .elseWord := by decide
    rw [Statements.yield, List.append_assoc]
    exact hne _ (y.nextKind_yield _)

end MicroJava
