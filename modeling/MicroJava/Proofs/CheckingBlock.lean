import MicroJava.Proofs.CheckingStatement

/-!
# Checking blocks

Statements are taken and checked by their production, in a loop or not (`World.ensuresStatement`), and so
are the blocks of methods (`World.Checks.block`). A statement that ends in an `if` without an `else` is
not followed by an `else` (`Statement.Before`).
-/

namespace MicroJava.World.Checks

open Production Static Tree

variable {w : World} {c : Setting} {A : Prop} {F : Token.Kind → Prop}

/-! ### Statements inside statements -/

theorem guardCondition {k : Condition} :
    w.Ensures c A Production.guardCondition (.word .leftParen :: (k.yield ++ [.word .rightParen])) F
      (ConditionIsCorrect w.context k) := by
  rw [Production.guardCondition]
  refine expect (Checks.iff (J := fun _ : Unit => ConditionIsCorrect w.context k ∧ True) ?_
    fun _ _ => by simp)
  refine condition.ensure (fun b _ => expect (write fun _ => write fun _ => ?_)) fun _ _ => rfl
  exact ret trivial (fun _ => ⟨(), trivial⟩) fun _ _ _ => trivial

section Nested

variable {S : Option Label → Production Unit} {exit : Option Label} {b : Bool} {k : Condition}
  {y z : Statement}

theorem statement_ifThen
    (hy : w.Ensures c True (S exit) y.yield y.Before (StatementIsCorrect w.context b y)) :
    w.Ensures c A (statementOf S exit) (Statement.ifThen k y).yield (Statement.ifThen k y).Before
      (StatementIsCorrect w.context b (.ifThen k y)) := by
  have hyield : (Statement.ifThen k y).yield = .word .ifWord ::
      ((.word .leftParen :: (k.yield ++ [.word .rightParen])) ++ (y.yield ++ [])) := by
    simp [Statement.yield]
  rw [statementOf, hyield]
  refine peek (k := .ifWord) (fun _ _ => rfl) ?_
  change w.Ensures c A (ifStatement S exit) _ _ _
  rw [ifStatement]
  refine advance (Checks.iff (J := fun _ : Unit => ConditionIsCorrect w.context k ∧
    StatementIsCorrect w.context b y ∧ True) ?_ fun _ _ => ?_)
  · refine (guardCondition (F := fun _ => True)).ensure (fun _ _ => ?_) fun _ _ => trivial
    refine hy.anywhere.ensure (fun _ _ => ?_) fun rest hrest _ => hrest trivial
    refine check_ne (fun rest hrest => hrest trivial) ?_
    exact silent acts_write fun _ _ _ => silent_write
  · constructor
    · rintro ⟨hk, hy, -⟩
      exact .ifThen hk hy
    · rintro (_ | _ | _ | _ | _ | ⟨hk, hy⟩)
      exact ⟨hk, hy, trivial⟩

theorem statement_ifElse (hopen : ¬y.EndsOpen)
    (hy : w.Ensures c True (S exit) y.yield y.Before (StatementIsCorrect w.context b y))
    (hz : w.Ensures c True (S exit) z.yield z.Before (StatementIsCorrect w.context b z)) :
    w.Ensures c A (statementOf S exit) (Statement.ifElse k y z).yield
      (Statement.ifElse k y z).Before (StatementIsCorrect w.context b (.ifElse k y z)) := by
  have hyield : (Statement.ifElse k y z).yield = .word .ifWord ::
      ((.word .leftParen :: (k.yield ++ [.word .rightParen])) ++
        (y.yield ++ .word .elseWord :: (z.yield ++ []))) := by
    simp [Statement.yield]
  rw [statementOf, hyield]
  refine peek (k := .ifWord) (fun _ _ => rfl) ?_
  change w.Ensures c A (ifStatement S exit) _ _ _
  rw [ifStatement]
  refine advance (Checks.iff (J := fun _ : Unit => ConditionIsCorrect w.context k ∧
    StatementIsCorrect w.context b y ∧ StatementIsCorrect w.context b z ∧ True) ?_ fun _ _ => ?_)
  · refine (guardCondition (F := fun _ => True)).ensure (fun _ _ => ?_) fun _ _ => trivial
    refine hy.anywhere.ensure (fun _ _ => ?_) fun rest _ h => absurd h hopen
    refine check (fun _ _ => rfl) (advance (write fun _ => write fun _ => write fun _ => ?_))
    refine hz.anywhere.ensure (fun _ _ => ?_) fun rest hrest => hrest
    exact silent acts_write fun _ _ _ => silent_write
  · constructor
    · rintro ⟨hk, hy, hz, -⟩
      exact .ifElse hk hy hz
    · rintro (_ | _ | _ | _ | _ | _ | ⟨hk, hy, hz⟩)
      exact ⟨hk, hy, hz, trivial⟩

theorem statement_whileLoop (hy : ∀ l, w.Ensures c True (S (some l)) y.yield y.Before
      (StatementIsCorrect w.context true y)) :
    w.Ensures c A (statementOf S exit) (Statement.whileLoop k y).yield
      (Statement.whileLoop k y).Before (StatementIsCorrect w.context b (.whileLoop k y)) := by
  have hyield : (Statement.whileLoop k y).yield = .word .whileWord ::
      ((.word .leftParen :: (k.yield ++ [.word .rightParen])) ++ (y.yield ++ [])) := by
    simp [Statement.yield]
  rw [statementOf, hyield]
  refine peek (k := .whileWord) (fun _ _ => rfl) ?_
  change w.Ensures c A (whileStatement S) _ _ _
  rw [whileStatement]
  refine advance (write fun _ => write fun _ => Checks.iff (J := fun _ : Unit =>
    ConditionIsCorrect w.context k ∧ StatementIsCorrect w.context true y ∧ True) ?_ fun _ _ => ?_)
  · refine (guardCondition (F := fun _ => True)).ensure (fun _ _ => write fun l => ?_)
      fun _ _ => trivial
    refine (hy l).anywhere.ensure (fun _ _ => write fun _ => write fun _ => ?_)
      fun rest hrest => hrest
    exact silent acts_write fun _ _ _ => silent_write
  · constructor
    · rintro ⟨hk, hy, -⟩
      exact .whileLoop hk hy
    · rintro (_ | _ | _ | _ | _ | _ | _ | ⟨hk, hy⟩)
      exact ⟨hk, hy, trivial⟩

theorem statement_breakLoop :
    w.Ensures c A (statementOf S exit) Statement.breakLoop.yield F
      (StatementIsCorrect w.context exit.isSome .breakLoop) := by
  rw [statementOf, Statement.yield]
  refine peek (k := .breakWord) (fun _ _ => rfl) ?_
  change w.Ensures c A (breakStatement exit) _ _ _
  rw [breakStatement]
  refine advance ?_
  cases exit with
  | none =>
    refine report_then rfl (fun _ _ h => by cases h) ?_
    exact expected.conseq (fun h => h.elim) (fun h => h.elim) (fun _ => trivial) (fun _ => id)
      fun _ => id
  | some l =>
    exact write fun _ => expected.iff fun _ _ => ⟨fun _ => .breakLoop, fun _ => trivial⟩

theorem statement_empty :
    w.Ensures c A (statementOf S exit) Statement.empty.yield F
      (StatementIsCorrect w.context b .empty) := by
  rw [statementOf, Statement.yield]
  refine peek (k := .semicolon) (fun _ _ => rfl) ?_
  exact (taken runs_advance_terminal).conseq (fun _ u _ => ⟨u, .empty⟩)
    (fun _ u _ => ⟨u, trivial, fun _ => id⟩) id (fun _ => id) fun _ _ => trivial

theorem statement_returnNone :
    w.Ensures c A (statementOf S exit) Statement.returnNone.yield F
      (StatementIsCorrect w.context b .returnNone) := by
  have hyield : Statement.returnNone.yield = .word .returnWord :: ([] ++ [.word .semicolon]) := rfl
  rw [statementOf, hyield]
  refine peek (k := .returnWord) (fun _ _ => rfl) ?_
  refine (returnStatement (φ := (· = .void)) fun _ _ ht => returnNone ht).iff fun _ _ => ?_
  refine ⟨.returnNone, fun h => ?_⟩
  cases h with
  | returnNone h => exact h

theorem statement_returnValue {e : Expression} :
    w.Ensures c A (statementOf S exit) (Statement.returnValue e).yield F
      (StatementIsCorrect w.context b (.returnValue e)) := by
  rw [statementOf, Statement.yield]
  refine peek (k := .returnWord) (fun _ _ => rfl) ?_
  refine (returnStatement (φ := fun τ => τ ≠ .void ∧ ∃ v, ExpressionIs w.context e v ∧ v.Fits τ)
    fun _ _ ht => returnSome ht).iff fun _ _ => ?_
  constructor
  · rintro ⟨hne, v, hv, h⟩
    exact .returnValue hne hv h
  · rintro (_ | _ | _ | _ | _ | _ | _ | _ | _ | _ | ⟨hne, hv, h⟩)
    exact ⟨hne, _, hv, h⟩

theorem statement_read {d : Designator} :
    w.Ensures c A (statementOf S exit) (Statement.read d).yield F
      (StatementIsCorrect w.context b (.read d)) := by
  rw [statementOf, Statement.yield]
  refine peek (k := .readWord) (fun _ _ => rfl) ?_
  change w.Ensures c A readStatement _ _ _
  rw [readStatement]
  refine advance (expect (Checks.iff (J := fun _ : Unit => ∃ v, DesignatorIs w.context d v ∧
    (∃ τ, v = .variable τ ∧ τ.IsPrintable) ∧ True) ?_ fun _ _ => ?_))
  · refine (wholeDesignator d).bind (fun x v _ => ?_) fun _ _ =>
      (by decide : Token.Kind.rightParen.EndsDesignator)
    exact (readInto fun hA => hA.2.2).ensureHere fun _ _ => expect expected
  · constructor
    · rintro ⟨_, hd, ⟨τ, rfl, hτ⟩, -⟩
      exact .read hd hτ
    · rintro (_ | _ | _ | _ | _ | _ | _ | _ | _ | _ | _ | ⟨hd, hτ⟩)
      exact ⟨_, hd, ⟨_, rfl, hτ⟩, trivial⟩

theorem statement_print {e : Expression} :
    w.Ensures c A (statementOf S exit) (Statement.print e).yield F
      (StatementIsCorrect w.context b (.print e)) := by
  rw [statementOf, Statement.yield]
  refine peek (k := .printWord) (fun _ _ => rfl) ?_
  refine (printStatement [] (fun _ => printWidth_none) fun _ =>
    (by decide : Token.Kind.rightParen.EndsExpression)).iff fun _ _ => ?_
  constructor
  · rintro ⟨v, τ, hv, hτ, hprintable⟩
    exact .print hv hτ hprintable
  · rintro (_ | _ | _ | _ | _ | _ | _ | _ | _ | _ | _ | _ | ⟨hv, hτ, hprintable⟩)
    exact ⟨_, _, hv, hτ, hprintable⟩

theorem statement_printWide {e : Expression} {width : Int32} :
    w.Ensures c A (statementOf S exit) (Statement.printWide e width).yield F
      (StatementIsCorrect w.context b (.printWide e width)) := by
  rw [statementOf, Statement.yield]
  refine peek (k := .printWord) (fun _ _ => rfl) ?_
  refine (printStatement [.word .comma, .number width] (fun _ => printWidth_some) fun _ =>
    (by decide : Token.Kind.comma.EndsExpression)).iff fun _ _ => ?_
  constructor
  · rintro ⟨v, τ, hv, hτ, hprintable⟩
    exact .printWide hv hτ hprintable
  · rintro (_ | _ | _ | _ | _ | _ | _ | _ | _ | _ | _ | _ | _ | ⟨hv, hτ, hprintable⟩)
    exact ⟨_, _, hv, hτ, hprintable⟩

/-- One turn of a block. -/
abbrev blockTurn (S : Option Label → Production Unit) (exit : Option Label) : Production Bool := do
  match ← Production.peek with
  | .rightBrace | .endOfFile => return false
  | _ =>
    S exit
    return true

theorem statements_nil :
    w.Repeating c A (blockTurn S exit) Statements.nil.yield (· = .rightBrace)
      (StatementsAreCorrect w.context b .nil) := by
  refine repeats_last (peek_end ?_)
  rintro _ rfl
  exact ret rfl (fun _ => ⟨(), .nil⟩) fun _ _ _ => trivial

theorem statements_cons {ys : Statements}
    (hy : w.Ensures c True (S exit) y.yield y.Before (StatementIsCorrect w.context b y))
    (hys : ∀ A, w.Repeating c A (blockTurn S exit) ys.yield (· = .rightBrace)
      (StatementsAreCorrect w.context b ys)) :
    w.Repeating c A (blockTurn S exit) (Statements.cons y ys).yield (· = .rightBrace)
      (StatementsAreCorrect w.context b (.cons y ys)) := by
  have hturn : w.Checks A (Runs c (blockTurn S exit)) y.yield y.Before (· = true)
      (fun _ : Unit => StatementIsCorrect w.context b y) fun _ _ => True := by
    intro s r s' rest hrun hn hahead hrest
    have hk : s.current.kind ∈ statementStarts := by
      rw [Session.kind_eq, hahead]
      exact y.nextKind_yield rest
    have hmap : w.Checks A (Runs c (do S exit; return true)) y.yield y.Before (· = true)
        (fun _ : Unit => StatementIsCorrect w.context b y) fun _ _ => True :=
      hy.anywhere.map (fun _ _ => rfl) fun _ _ _ => trivial
    simp only [blockTurn, runs_bind, runs_peek] at hrun
    obtain ⟨_, s, ⟨rfl, rfl⟩, hrun⟩ := hrun
    split at hrun
    · next h => exact absurd (h ▸ hk) (by decide)
    · next h => exact absurd (h ▸ hk) (by decide)
    · exact hmap hrun hn hahead hrest
  rw [Statements.yield]
  refine Checks.iff (repeats_next hturn (hys _) fun rest hrest => ?_) fun _ _ => ?_
  · exact y.before_statements ys rest hrest
  · refine ⟨fun h => .cons h.1 h.2, fun h => ?_⟩
    cases h with
    | cons h h' => exact ⟨h, h'⟩

theorem blockOf {ys : Statements}
    (hys : ∀ A, w.Repeating c A (blockTurn S exit) ys.yield (· = .rightBrace)
      (StatementsAreCorrect w.context b ys)) :
    w.Ensures c A (Production.blockOf S exit) (Statement.block ys).yield F
      (StatementsAreCorrect w.context b ys) := by
  rw [Production.blockOf, Statement.yield]
  refine expect (Checks.iff (J := fun _ : Unit => StatementsAreCorrect w.context b ys ∧ True) ?_
    fun _ _ => by simp)
  exact (repeats (hys A)).ensure (fun _ _ => expected) fun _ _ => rfl

theorem statement_block {ys : Statements}
    (hys : ∀ A, w.Repeating c A (blockTurn S exit) ys.yield (· = .rightBrace)
      (StatementsAreCorrect w.context b ys)) :
    w.Ensures c A (statementOf S exit) (Statement.block ys).yield F
      (StatementIsCorrect w.context b (.block ys)) := by
  rw [statementOf]
  refine peek (k := .leftBrace) (fun _ _ => rfl) ?_
  refine (blockOf hys).iff fun _ _ => ⟨.block, fun h => ?_⟩
  cases h with
  | block h => exact h

end Nested

end MicroJava.World.Checks

namespace MicroJava.World

open Production Static Tree

variable (w : World) (c : Setting) {A : Prop} {F : Token.Kind → Prop}

theorem nestedIn (x : Statement) (exit : Option Label)
    (h : ∀ depth, w.Ensures c True (statementOf (nestedStatement depth) exit) x.yield x.Before
      (StatementIsCorrect w.context exit.isSome x)) :
    ∀ depth, w.Ensures c True (nestedStatement depth exit) x.yield x.Before
      (StatementIsCorrect w.context exit.isSome x)
  | 0 => fun _ _ _ _ hrun => absurd hrun runs_throw
  | depth + 1 => h depth

mutual

theorem ensuresStatement (depth : Nat) : ∀ (x : Statement) (exit : Option Label), x.NearestElse →
    w.Ensures c True (statementOf (nestedStatement depth) exit) x.yield x.Before
      (StatementIsCorrect w.context exit.isSome x)
  | .assign .., _, _ => Checks.statement_assign
  | .call .., _, _ => Checks.statement_call
  | .increment _, _, _ => Checks.statement_increment
  | .decrement _, _, _ => Checks.statement_decrement
  | .ifThen _ x, exit, h => Checks.statement_ifThen
      (nestedIn w c x exit (fun depth => ensuresStatement depth x exit h) depth)
  | .ifElse _ x y, exit, h => Checks.statement_ifElse h.1
      (nestedIn w c x exit (fun depth => ensuresStatement depth x exit h.2.1) depth)
      (nestedIn w c y exit (fun depth => ensuresStatement depth y exit h.2.2) depth)
  | .whileLoop _ x, _, h => Checks.statement_whileLoop fun l =>
      nestedIn w c x (some l) (fun depth => ensuresStatement depth x (some l) h) depth
  | .breakLoop, _, _ => Checks.statement_breakLoop
  | .returnNone, _, _ => Checks.statement_returnNone
  | .returnValue _, _, _ => Checks.statement_returnValue
  | .read _, _, _ => Checks.statement_read
  | .print _, _, _ => Checks.statement_print
  | .printWide .., _, _ => Checks.statement_printWide
  | .block xs, exit, h => Checks.statement_block fun A => ensuresStatements depth xs exit h A
  | .empty, _, _ => Checks.statement_empty

theorem ensuresStatements (depth : Nat) : ∀ (xs : Statements) (exit : Option Label), xs.NearestElse →
    ∀ A, w.Repeating c A (Checks.blockTurn (nestedStatement depth) exit) xs.yield (· = .rightBrace)
      (StatementsAreCorrect w.context exit.isSome xs)
  | .nil, _, _, _ => Checks.statements_nil
  | .cons x xs, exit, h, _ => Checks.statements_cons
      (nestedIn w c x exit (fun depth => ensuresStatement depth x exit h.1) depth)
      fun A => ensuresStatements depth xs exit h.2 A

end

variable {w c}

/-- The block of a method. -/
theorem Checks.block {xs : Statements} (h : xs.NearestElse) :
    w.Ensures c A Production.block (Statement.block xs).yield F
      (StatementsAreCorrect w.context false xs) := by
  rw [Production.block]
  exact setting (blockOf fun A => ensuresStatements w c c.bound xs none h A)

end MicroJava.World
