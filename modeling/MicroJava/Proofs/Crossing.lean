import MicroJava.Proofs.Accepting
import MicroJava.Proofs.Recovering

/-!
# Statements that are crossed

Where a recovery of a statement skips what is inserted at a place of a list of statements
(`Tree.Statements.Splits`), the list is crossed: the block goes on behind the inserted tokens as it does
without them (`Crosses.statements`), and so do the statements around it (`Crosses.encloses`).
-/

namespace MicroJava

open Static Tree

/-! ### Places in statements -/

/-- The block of the statements `xs` is in the statement, and in no other block of it, between the
terminals `before` and `behind`. -/
inductive Tree.Statement.Encloses : Statement → List Terminal → Statements → List Terminal → Prop
  | block {xs : Statements} : Encloses (.block xs) [.word .leftBrace] xs [.word .rightBrace]
  | ifThen {k : Condition} {x : Statement} {xs : Statements} {before behind : List Terminal} :
    Encloses x before xs behind → Encloses (.ifThen k x)
      (.word .ifWord :: ((.word .leftParen :: (k.yield ++ [.word .rightParen])) ++ before)) xs behind
  | ifElseThen {k : Condition} {x y : Statement} {xs : Statements} {before behind : List Terminal} :
    Encloses x before xs behind → Encloses (.ifElse k x y)
      (.word .ifWord :: ((.word .leftParen :: (k.yield ++ [.word .rightParen])) ++ before)) xs
      (behind ++ .word .elseWord :: y.yield)
  | ifElseElse {k : Condition} {x y : Statement} {xs : Statements} {before behind : List Terminal} :
    Encloses y before xs behind → Encloses (.ifElse k x y)
      (.word .ifWord :: ((.word .leftParen :: (k.yield ++ [.word .rightParen])) ++
        (x.yield ++ .word .elseWord :: before))) xs behind
  | whileLoop {k : Condition} {x : Statement} {xs : Statements} {before behind : List Terminal} :
    Encloses x before xs behind → Encloses (.whileLoop k x)
      (.word .whileWord :: ((.word .leftParen :: (k.yield ++ [.word .rightParen])) ++ before)) xs behind

/-- A place between two statements of the list, or of a list in it, or in front of the first or behind the
last one: with the terminals `before` in front of it and `behind` it. -/
inductive Tree.Statements.Splits : Statements → List Terminal → List Terminal → Prop
  | here {xs : Statements} : Splits xs [] xs.yield
  | behind {x : Statement} {xs : Statements} {before behind : List Terminal} :
    Splits xs before behind → Splits (.cons x xs) (x.yield ++ before) behind
  | inside {x : Statement} {xs ys : Statements} {left right before behind : List Terminal} :
    x.Encloses left ys right → Splits ys before behind →
      Splits (.cons x xs) (left ++ before) (behind ++ right ++ xs.yield)

theorem Tree.Statement.Encloses.yield {x : Statement} {xs : Statements} {before behind : List Terminal}
    (h : x.Encloses before xs behind) : x.yield = before ++ (xs.yield ++ behind) := by
  induction h with
  | block => rfl
  | _ _ ih => simp [Statement.yield, ih]

theorem Tree.Statements.Splits.yield {xs : Statements} {before behind : List Terminal}
    (h : xs.Splits before behind) : xs.yield = before ++ behind := by
  induction h with
  | here => rfl
  | behind _ ih => simp [Statements.yield, ih]
  | inside hx _ ih => simp [Statements.yield, hx.yield, ih]

theorem Tree.Statement.Encloses.nearestElse {x : Statement} {xs : Statements}
    {before behind : List Terminal} (h : x.Encloses before xs behind) (hx : x.NearestElse) :
    xs.NearestElse := by
  induction h with
  | block => exact hx
  | ifThen _ ih => exact ih hx
  | ifElseThen _ ih => exact ih hx.2.1
  | ifElseElse _ ih => exact ih hx.2.2
  | whileLoop _ ih => exact ih hx

theorem Tree.Statement.Encloses.ne_nil {x : Statement} {xs : Statements}
    {before behind : List Terminal} (h : x.Encloses before xs behind) : before ≠ [] ∧ behind ≠ [] := by
  induction h <;> simp_all

/-- Behind a block, its brace is next. -/
theorem Tree.Statement.Encloses.nextKind_behind {x : Statement} {xs : Statements}
    {before behind : List Terminal} (h : x.Encloses before xs behind) (rest : List Terminal) :
    nextKind (behind ++ rest) = .rightBrace := by
  induction h generalizing rest with
  | block => rfl
  | ifThen _ ih => exact ih rest
  | ifElseThen _ ih =>
    rw [List.append_assoc]
    exact ih _
  | ifElseElse _ ih => exact ih rest
  | whileLoop _ ih => exact ih rest

/-- At a place of a list of statements, no `else` is next. -/
theorem Tree.Statements.Splits.nextKind_ne_else {xs : Statements} {before behind : List Terminal}
    (h : xs.Splits before behind) {rest : List Terminal} (hrest : nextKind rest = .rightBrace) :
    nextKind (behind ++ rest) ≠ .elseWord := by
  induction h generalizing rest with
  | @here xs =>
    cases xs with
    | nil =>
      rw [Statements.yield, List.nil_append, hrest]
      decide
    | cons x xs =>
      have hne : ∀ k ∈ statementStarts, k ≠ .elseWord := by decide
      rw [Statements.yield, List.append_assoc]
      exact hne _ (x.nextKind_yield _)
  | behind _ ih => exact ih hrest
  | inside hx _ ih =>
    rw [List.append_assoc, List.append_assoc]
    exact ih (hx.nextKind_behind _)

/-! ### What productions take -/

theorem SymbolTable.initial_models : SymbolTable.initial.types.Models fun _ => none :=
  SymbolTable.initial_agrees.types

theorem Static.Context.namesTypes_initial : Context.NamesTypes ⟨predeclared, [], [], .void⟩ :=
  (Session.agrees_start "" {}).namesTypes

/-- What is known before the first declaration. -/
def World.initial : World where
  classes _ := none
  context := ⟨predeclared, [], [], .void⟩
  table := .initial
  models := SymbolTable.initial_models
  named := Context.namesTypes_initial

namespace Production

variable {α β : Type} {c c' : Setting} {I : Insertion} {m m' : Production α}
  {f f' : α → Production β} {xs pre post : List Terminal} {F H : Token.Kind → Prop}
  {P : α → Prop} {G : SymbolTable → Prop}

namespace Consumes

theorem of_checks {V : Type} {w : World} {A : Prop} {J : V → Prop} {D : α → V → Prop}
    (h : w.Checks A (Runs c m) xs H P J D) : Consumes c m xs H P := fun _ _ _ _ hrun hn hahead hrest =>
  (h hrun hn hahead hrest).imp id fun hchecked => hchecked.reaches.toTakes

theorem of_obeys {V : Type} {R : Knowledge → Prop} {J : V → Prop} {T : α → V → Knowledge → Prop}
    (h : Obeys R (Runs c m) xs H P J T) : Consumes c m xs H P := fun _ _ _ _ hrun hn hahead hrest =>
  (h hrun hn hahead hrest).imp id fun hobeyed => hobeyed.takes

theorem token {t : Terminal} {a : α} (hm : ∀ s a' s', Runs c m s a' s' → s.current.terminal = t →
      a' = a ∧ s' = s.advance) : Consumes c m [t] F fun _ => True := by
  intro s a' s₁ rest hrun hn hahead _
  obtain ⟨-, rfl⟩ := hm s a' s₁ hrun (Session.current_of_ahead hahead).1
  exact ⟨trivial, .advance hn hahead⟩

theorem statement {x : Statement} (hx : x.NearestElse) (depth : Nat) (exit : Option Label) :
    Consumes c (nestedStatement depth exit) x.yield x.Before fun _ => True :=
  of_checks (World.initial.nestedIn c x exit
    (fun depth => World.initial.ensuresStatement c depth x exit hx) depth)

theorem blockTurn {x : Statement} (hx : x.NearestElse) (depth : Nat) (exit : Option Label) :
    Consumes c (World.Checks.blockTurn (nestedStatement depth) exit) x.yield x.Before (· = true) := by
  refine peek (p := (· ∈ statementStarts)) (fun rest _ => x.nextKind_yield rest) fun k hk => ?_
  split
  · exact absurd hk (by decide)
  · exact absurd hk (by decide)
  · exact turn (statement hx depth exit)

end Consumes

theorem copiesTurn_blockTurn (hc : c.Extends c') {depth depth' : Nat} (hd : depth ≤ depth')
    (exit : Option Label) :
    CopiesTurn .whetherElse c c' (World.Checks.blockTurn (nestedStatement depth) exit)
      (World.Checks.blockTurn (nestedStatement depth') exit) := by
  refine .of_peek fun k => ?_
  split
  · exact .inr ⟨rfl, rfl⟩
  · exact .inr ⟨rfl, rfl⟩
  · exact .inl ((Finishes.nestedStatement hc hd exit).andThen fun _ => .pure)

namespace Crosses

/-! ### Parts of productions -/

/-- A part in front of the place, whatever is declared. -/
theorem part {d : Lookahead} {ys : List Terminal} (hm : Copies d c c' m m')
    (hd : d = .nothing ∨ pre ≠ [])
    (hconsumes : Consumes c m ys H P)
    (hH : ∀ rest, F (nextKind rest) → H (nextKind (pre ++ (post ++ rest))))
    (hpost : ∀ rest, F (nextKind rest) → post ++ rest ≠ [])
    (hf : ∀ a, Crosses I c c' (fun _ => True) (f a) (f' a) pre post F) :
    Crosses I c c' (fun _ => True) (m >>= f) (m' >>= f') (ys ++ pre) post F := by
  refine step hm hd hconsumes hH hpost (fun _ _ _ _ _ => ?_) hf
  trivial

theorem expect {k : Token.Kind} {f f' : Unit → Production β}
    (hpost : ∀ rest, F (nextKind rest) → post ++ rest ≠ [])
    (hf : Crosses I c c' G (f ()) (f' ()) pre post F) :
    Crosses I c c' G (Production.expect k >>= f) (Production.expect k >>= f') (.word k :: pre) post F :=
  step (H := fun _ => True) Finishes.expect.copies (.inl rfl) (.token World.Checks.runs_expect_terminal)
    (fun _ _ => trivial) hpost (fun s u s₁ hrun hg => by
      rcases runs_expect.1 hrun with ⟨-, rfl⟩ | ⟨-, rfl⟩ <;> exact hg) fun _ => hf

theorem advance {t : Terminal} {f f' : Unit → Production β}
    (hpost : ∀ rest, F (nextKind rest) → post ++ rest ≠ [])
    (hf : Crosses I c c' G (f ()) (f' ()) pre post F) :
    Crosses I c c' G (Production.advance >>= f) (Production.advance >>= f') (t :: pre) post F :=
  step (H := fun _ => True) Finishes.advance.copies (.inl rfl)
    (.token World.Checks.runs_advance_terminal) (fun _ _ => trivial) hpost (fun _ _ _ hrun hg => runs_advance.1 hrun ▸ hg) fun _ => hf

theorem repeatWhile {body body' : Production Bool} (hroom : c.bound < c'.bound)
    (h : ∀ n n', n < n' → Crosses I c c' G (turns body n) (turns body' n') pre post F) :
    Crosses I c c' G (repeatWhile body) (repeatWhile body') pre post F :=
  @read _ _ _ _ _ _ _ _ (fun c => turns body c.bound) (fun c => turns body' c.bound) (h _ _ hroom)

/-- Whether a token of this kind follows, which is in front of the place. -/
theorem check {k : Token.Kind} {f f' : Bool → Production β}
    (hlater : Keeps c Session.Later (Production.check k >>= f)) (hpre : pre ≠ [])
    (hk : ∀ rest, F (nextKind rest) → nextKind (pre ++ (post ++ rest)) = k)
    (hf : Crosses I c c' G (f true) (f' true) pre post F) :
    Crosses I c c' G (Production.check k >>= f) (Production.check k >>= f') pre post F := by
  simp only [Production.check, bind_assoc, pure_bind] at hlater ⊢
  refine peek (p := (· = k)) hlater hpre hk ?_
  rintro _ rfl
  simpa using hf

/-- An action in front of the place, whatever is declared. -/
theorem action (hm : Copies .nothing c c' m m') (hstill : Keeps c (Still c) m)
    (hpost : ∀ rest, F (nextKind rest) → post ++ rest ≠ [])
    (hf : ∀ a, Crosses I c c' (fun _ => True) (f a) (f' a) pre post F) :
    Crosses I c c' (fun _ => True) (m >>= f) (m' >>= f') pre post F := by
  refine act hm (fun _ _ _ hrun => hstill hrun) hpost (fun _ _ _ _ _ => ?_) hf
  trivial

theorem write {e : Emission Fault α} (hpost : ∀ rest, F (nextKind rest) → post ++ rest ≠ [])
    (hf : ∀ a, Crosses I c c' (fun _ => True) (f a) (f' a) pre post F) :
    Crosses I c c' (fun _ => True) (Production.write e >>= f) (Production.write e >>= f') pre post F :=
  action .write (still_of_acts acts_write) hpost hf

theorem reportIf {mistake : Prop} [Decidable mistake] {p : Problem} {details : List String}
    {f f' : Unit → Production β} (hp : p.isSyntactic = false)
    (hpost : ∀ rest, F (nextKind rest) → post ++ rest ≠ [])
    (hf : Crosses I c c' (fun _ => True) (f ()) (f' ()) pre post F) :
    Crosses I c c' (fun _ => True) (Production.reportIf mistake p details >>= f)
      (Production.reportIf mistake p details >>= f') pre post F :=
  action .reportIf (still_of_acts (acts_reportIf hp)) hpost fun _ => hf

/-! ### Statements -/

/-- A condition in parentheses, and the jump behind it. -/
theorem guardCondition {k : Condition} (hc : c.Extends c') {f f' : Branch → Production β}
    (hpost : ∀ rest, F (nextKind rest) → post ++ rest ≠ [])
    (hf : ∀ b, Crosses I c c' (fun _ => True) (f b) (f' b) pre post F) :
    Crosses I c c' (fun _ => True) (Production.guardCondition >>= f) (Production.guardCondition >>= f')
      ((.word .leftParen :: (k.yield ++ [.word .rightParen])) ++ pre) post F :=
  part (Finishes.guardCondition hc).copies (.inl rfl)
    (.of_checks (World.Checks.guardCondition (w := World.initial) (A := True) (F := fun _ => True)))
    (fun _ _ => trivial) hpost hf

/-- An `if` is crossed where what stands behind its condition is. -/
theorem ifStatement {S S' : Option Label → Production Unit} {exit : Option Label} {k : Condition}
    (hc : c.Extends c') (hlater : Keeps c Session.Later (statementOf S exit))
    (hpost : ∀ rest, F (nextKind rest) → post ++ rest ≠ [])
    (h : ∀ b, Crosses I c c' (fun _ => True) (do S exit; otherwise S exit b)
      (do S' exit; otherwise S' exit b) pre post F) :
    Crosses I c c' (fun _ => True) (statementOf S exit) (statementOf S' exit)
      (.word .ifWord :: ((.word .leftParen :: (k.yield ++ [.word .rightParen])) ++ pre)) post F := by
  refine peek (p := (· = .ifWord)) hlater (by simp) (fun _ _ => rfl) ?_
  rintro _ rfl
  rw [ifStatement_eq, ifStatement_eq]
  exact advance hpost (guardCondition hc hpost h)

/-- The recursion is not deeper on the first text. -/
theorem nested {exit : Option Label} (hc : c.Extends c')
    (h : ∀ depth depth', depth < depth' → Crosses I c c' (fun _ => True)
      (statementOf (nestedStatement depth) exit) (statementOf (nestedStatement depth') exit) pre post F) :
    ∀ depth depth', depth < depth' → Crosses I c c' (fun _ => True) (nestedStatement depth exit)
      (nestedStatement depth' exit) pre post F
  | 0, _, hd => ⟨(Finishes.nestedStatement hc (Nat.le_of_lt hd) exit).copies.keeps,
      fun _ _ _ _ _ hrun => absurd hrun runs_throw⟩
  | depth + 1, depth' + 1, hd => h depth depth' (Nat.lt_of_succ_lt_succ hd)

theorem blockOf {S S' : Option Label → Production Unit} {exit : Option Label}
    (hroom : c.bound < c'.bound)
    (hxs : ∀ n n', n < n' → Crosses I c c' (fun _ => True) (turns (World.Checks.blockTurn S exit) n)
      (turns (World.Checks.blockTurn S' exit) n') pre post (· = .rightBrace)) :
    Crosses I c c' (fun _ => True) (Production.blockOf S exit) (Production.blockOf S' exit)
      (.word .leftBrace :: pre) (post ++ [.word .rightBrace]) F :=
  expect (fun _ _ => by simp) <|
    (repeatWhile hroom hxs).andThen (d := .nothing) (fun _ => Finishes.expect.copies) fun _ _ => rfl

variable {x : Statement} {ys : Statements} {before behind : List Terminal}

/-- Around the block in which the place is, statements are crossed. -/
theorem encloses (hc : c.Extends c') (hroom : c.bound < c'.bound) (hx : x.Encloses before ys behind)
    (hnearest : x.NearestElse)
    (hys : ∀ exit depth depth', depth < depth' → ∀ n n', n < n' → Crosses I c c' (fun _ => True)
      (turns (World.Checks.blockTurn (nestedStatement depth) exit) n)
      (turns (World.Checks.blockTurn (nestedStatement depth') exit) n') pre post (· = .rightBrace)) :
    ∀ exit depth depth', depth < depth' → Crosses I c c' (fun _ => True) (nestedStatement depth exit)
      (nestedStatement depth' exit) (before ++ pre) (post ++ behind) x.Before := by
  have hS : ∀ depth depth', depth < depth' → ∀ exit,
      Finishes .whetherElse c c' (nestedStatement depth exit) (nestedStatement depth' exit) :=
    fun _ _ hd exit => Finishes.nestedStatement hc (Nat.le_of_lt hd) exit
  have hlater : ∀ depth depth' exit, depth < depth' →
      Keeps c Session.Later (statementOf (nestedStatement depth) exit) := fun depth depth' exit hd =>
    (Finishes.statementOf hc (hS depth depth' hd)).copies.keeps
  induction hx with
  | block =>
    intro exit
    refine nested hc fun depth depth' hd => ?_
    refine peek (p := (· = .leftBrace)) (hlater _ _ _ hd) (by simp) (fun _ _ => rfl) ?_
    rintro _ rfl
    exact blockOf hroom (hys exit depth depth' hd)
  | @ifThen k x xs before behind hx ih =>
    have hpost : ∀ rest, (Statement.ifThen k x).Before (nextKind rest) → post ++ behind ++ rest ≠ [] :=
      fun _ _ => by simp [hx.ne_nil.2]
    intro exit
    refine nested hc fun depth depth' hd => ?_
    rw [List.cons_append, List.append_assoc]
    refine ifStatement hc (hlater _ _ _ hd) hpost fun b => ?_
    rw [← List.append_nil (post ++ behind)]
    exact (ih hnearest exit depth depth' hd).andThen
      (fun _ => Finishes.copies_otherwise (hS depth depth' hd)) fun _ hrest _ => hrest trivial
  | @ifElseThen k x y xs before behind hx ih =>
    have hpost : ∀ rest, (Statement.ifElse k x y).Before (nextKind rest) →
        post ++ (behind ++ .word .elseWord :: y.yield) ++ rest ≠ [] := fun _ _ => by simp
    intro exit
    refine nested hc fun depth depth' hd => ?_
    rw [List.cons_append, List.append_assoc]
    refine ifStatement hc (hlater _ _ _ hd) hpost fun b => ?_
    rw [← List.append_assoc]
    exact (ih hnearest.2.1 exit depth depth' hd).andThen
      (fun _ => Finishes.copies_otherwise (hS depth depth' hd)) fun _ _ hopen => absurd hopen hnearest.1
  | @ifElseElse k x y xs before behind hy ih =>
    have hpost : ∀ rest, (Statement.ifElse k x y).Before (nextKind rest) → post ++ behind ++ rest ≠ [] :=
      fun _ _ => by simp [hy.ne_nil.2]
    intro exit
    refine nested hc fun depth depth' hd => ?_
    rw [List.cons_append, List.append_assoc]
    refine ifStatement hc (hlater _ _ _ hd) hpost fun b => ?_
    rw [List.append_assoc]
    refine part (hS depth depth' hd exit).copies (.inr (by simp)) (.statement hnearest.2.1 depth exit)
      (fun _ _ hopen => absurd hopen hnearest.1) hpost fun _ => ?_
    refine check (Finishes.copies_otherwise (hS depth depth' hd)).keeps (by simp) (fun _ _ => rfl) ?_
    rw [if_pos rfl, if_pos rfl]
    refine advance hpost (write hpost fun _ => write hpost fun _ => write hpost fun _ => ?_)
    rw [← List.append_nil (post ++ behind)]
    exact (ih hnearest.2.2 exit depth depth' hd).andThen (d := .nothing) (fun _ => .write)
      fun rest hrest => hrest
  | @whileLoop k x xs before behind hx ih =>
    have hpost : ∀ rest, (Statement.whileLoop k x).Before (nextKind rest) →
        post ++ behind ++ rest ≠ [] := fun _ _ => by simp [hx.ne_nil.2]
    intro exit
    refine nested hc fun depth depth' hd => ?_
    refine peek (p := (· = .whileWord)) (hlater _ _ _ hd) (by simp) (fun _ _ => rfl) ?_
    rintro _ rfl
    rw [List.cons_append, List.append_assoc]
    refine advance hpost (write hpost fun top => write hpost fun _ => guardCondition hc hpost fun b =>
      write hpost fun label => ?_)
    rw [← List.append_nil (post ++ behind)]
    refine (ih hnearest (some label) depth depth' hd).andThen (d := .nothing) (fun _ => ?_)
      fun rest hrest => hrest
    exact .bind .write fun _ => .bind .write fun _ => .write

/-- A turn of the block around the statement in which the place is. -/
theorem blockTurn {exit : Option Label} {depth depth' : Nat} (hc : c.Extends c') (hd : depth ≤ depth')
    (hpre : pre ≠ []) (hx : x.yield = pre ++ post)
    (hstatement : Crosses I c c' (fun _ => True) (nestedStatement depth exit)
      (nestedStatement depth' exit) pre post x.Before) :
    Crosses I c c' (fun _ => True) (World.Checks.blockTurn (nestedStatement depth) exit)
      (World.Checks.blockTurn (nestedStatement depth') exit) pre post x.Before := by
  refine peek (p := (· ∈ statementStarts)) (copiesTurn_blockTurn hc hd exit).copies.keeps hpre
    (fun rest _ => ?_) fun k hk => ?_
  · rw [← List.append_assoc, ← hx]
    exact x.nextKind_yield rest
  · split
    · exact absurd hk (by decide)
    · exact absurd hk (by decide)
    · rw [← List.append_nil post]
      exact hstatement.andThen (d := .nothing) (fun _ => .pure) fun _ hrest => hrest

/-- The statements of a list are crossed at each of its places. -/
theorem statements (hc : c.Extends c') (hroom : c.bound < c'.bound) (hI : I.SkippedInBlock)
    (hlength : I.length ≤ c'.bound) (hys : ys.Splits pre post) (hnearest : ys.NearestElse) :
    ∀ exit depth depth', depth < depth' → ∀ n n', n < n' → Crosses I c c' (fun _ => True)
      (turns (World.Checks.blockTurn (nestedStatement depth) exit) n)
      (turns (World.Checks.blockTurn (nestedStatement depth') exit) n') pre post (· = .rightBrace) := by
  induction hys with
  | here =>
    intro exit depth depth' hd
    refine turns_here (copiesTurn_blockTurn hc (Nat.le_of_lt hd) exit) ?_
    exact fun _ _ _ _ _ _ _ _ _ hp hplace => hI.runs hlength hp hplace (by omega) exit
  | @behind x xs pre post hxs ih =>
    intro exit depth depth' hd
    refine turns_next (copiesTurn_blockTurn hc (Nat.le_of_lt hd) exit) hI.shows
      (.blockTurn hnearest.1 depth exit)
      (fun rest hrest => ?_) (fun rest hrest => ?_) (fun _ _ _ _ _ => trivial)
      (ih hnearest.2 exit depth depth' hd)
    · rw [← List.append_assoc, ← hxs.yield]
      exact x.before_statements xs rest hrest
    · rintro hnil
      rw [(List.append_eq_nil_iff.1 hnil).2] at hrest
      contradiction
  | @inside x xs ys left right pre post hx hys ih =>
    intro exit depth depth' hd n n' hn
    refine turns_inside (copiesTurn_blockTurn hc (Nat.le_of_lt hd) exit) ?_
      (fun rest hrest => x.before_statements xs rest hrest) (Nat.le_of_lt hn)
    refine blockTurn hc (Nat.le_of_lt hd) ?_ ?_ (encloses hc hroom hx hnearest.1
      (ih (hx.nearestElse hnearest.1)) exit depth depth' hd)
    · simp [hx.ne_nil.1]
    · simp [hx.yield, hys.yield]

end Crosses

end Production

end MicroJava
