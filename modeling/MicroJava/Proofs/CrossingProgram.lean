import MicroJava.Proofs.Crossing

/-!
# Programs that are crossed

Methods are crossed at the places of their blocks, lists of methods also between the methods, and lists of
declarations between the declarations. Programs are crossed wherever these are
(`Crosses.programInMethods`, `Crosses.programInDeclarations`).
-/

namespace MicroJava

/-- What stands in front of the statements of a method. -/
def Tree.Method.front (m : Tree.Method) : List Terminal :=
  m.result.elim [.word .voidWord] TypeName.yield ++ ([.name m.name] ++
    ((.word .leftParen :: (m.parameters.elim [] Parameters.yield ++ [.word .rightParen])) ++
      (m.locals.flatMap Variables.yield ++ [.word .leftBrace])))

theorem Tree.Method.yield_eq (m : Tree.Method) :
    m.yield = m.front ++ (m.body.yield ++ [.word .rightBrace]) := by
  simp [Method.yield, Method.front, Statement.yield]

/-- A method starts with its type or with `void`. -/
theorem Tree.Method.nextKind_front (m : Tree.Method) (rest : List Terminal) :
    nextKind (m.front ++ rest) = .identifier ∨ nextKind (m.front ++ rest) = .voidWord := by
  obtain ⟨_ | t, n, ps, vs, xs⟩ := m
  · exact .inr rfl
  · exact .inl rfl

namespace Production

open Static Tree

variable {α β : Type} {c c' : Setting} {d : Lookahead} {I : Insertion} {pre post : List Terminal}
  {F H : Token.Kind → Prop}

/-! ### Methods -/

theorem Consumes.header (id : EntryId) (ps : Option Parameters) :
    Consumes c (Production.header id)
      (.word .leftParen :: (ps.elim [] Parameters.yield ++ [.word .rightParen])) F fun _ => True :=
  .of_obeys (@Obeys.header (fun _ => none) World.initial.context .initial id "" c F .void none ps)

theorem Consumes.variableDeclarations (vs : List Variables) :
    Consumes c Production.variableDeclarations (vs.flatMap Variables.yield) (· ≠ .identifier)
      fun _ => True :=
  .of_obeys (@Obeys.variableDeclarations (fun _ => none) c vs World.initial.context)

theorem Consumes.resultType (r : Option TypeName) :
    Consumes c Production.resultType (r.elim [.word .voidWord] TypeName.yield) (· ≠ .leftBracket)
      fun _ => True :=
  .of_obeys (@Obeys.resultType (fun _ => none) World.initial.context c r)

namespace Crosses

theorem methodBody {id : EntryId} {isEntry : Bool} {t : TypeId} {count : Nat} {vs : List Variables}
    {xs : Statements} (hc : c.Extends c') (hroom : c.bound < c'.bound) (hI : I.SkippedInBlock)
    (hlength : I.length ≤ c'.bound) (hxs : xs.Splits pre post) (hnearest : xs.NearestElse) :
    Crosses I c c' (fun _ => True) (methodBody id isEntry t count) (methodBody id isEntry t count)
      (vs.flatMap Variables.yield ++ ([.word .leftBrace] ++ pre)) (post ++ [.word .rightBrace]) F := by
  have hpost : ∀ rest, F (nextKind rest) → post ++ [.word .rightBrace] ++ rest ≠ [] := fun _ _ => by simp
  refine part (Finishes.variableDeclarations hc) (.inr (by simp)) (.variableDeclarations vs)
    (fun _ _ h => by cases h) hpost fun _ => ?_
  refine action .table (still_of_acts acts_table) hpost fun t => read ?_
  rw [hc.options]
  refine reportIf rfl hpost (action .beginning still_beginning hpost fun _ => ?_)
  rw [← List.append_nil (post ++ _)]
  refine andThen (H := F) (read ?_) (d := .nothing) (fun _ => .ending) fun _ hrest => hrest
  exact blockOf hroom (statements hc hroom hI hlength hxs hnearest none _ _ hroom)

/-- A method is crossed at each place of its block. -/
theorem methodDeclaration {m : Tree.Method} (hc : c.Extends c') (hroom : c.bound < c'.bound)
    (hI : I.SkippedInBlock) (hlength : I.length ≤ c'.bound) (hm : m.body.Splits pre post)
    (hnearest : m.body.NearestElse) :
    Crosses I c c' (fun _ => True) methodDeclaration methodDeclaration
      (m.front ++ pre) (post ++ [.word .rightBrace]) F := by
  have hpost : ∀ rest, F (nextKind rest) → post ++ [.word .rightBrace] ++ rest ≠ [] := fun _ _ => by simp
  simp only [Method.front, List.append_assoc _ _ pre]
  refine part .resultType (.inr (by simp)) (.resultType m.result) (fun _ _ h => by cases h) hpost
    fun t => ?_
  refine part (H := fun _ => True) .identifier (.inl rfl)
    (.token (t := .name m.name) World.Checks.runs_identifier_terminal) (fun _ _ => trivial) hpost fun name => ?_
  refine action .declare still_declare hpost fun id => action .setReturnType still_setReturnType hpost
    fun _ => action .updateTable still_withTable hpost fun _ => ?_
  refine part (H := fun _ => True) (Copies.header hc) (.inr (by simp)) (.header id m.parameters)
    (fun _ _ => trivial) hpost fun count => read ?_
  rw [hc.options]
  refine reportIf rfl hpost (reportIf rfl hpost ?_)
  rw [← List.append_nil (post ++ _)]
  refine (methodBody hc hroom hI hlength hm hnearest).andThen (d := .nothing) (fun _ => ?_)
    fun _ hrest => hrest
  exact .bind .closeScope fun _ => .bind .updateMethod fun _ => .setReturnType

end Crosses

/-! ### Turns of a program -/

theorem copiesTurn_methodTurn (hc : c.Extends c') : CopiesTurn .nothing c c' methodTurn methodTurn := by
  have hmethod : Finishes .nothing c c' (do methodDeclaration; return true)
      (do methodDeclaration; return true) := (Finishes.methodDeclaration hc).andThen fun _ => .pure
  refine .of_peek fun k => ?_
  split
  · exact .inl hmethod
  · exact .inl hmethod
  · exact .inr ⟨rfl, rfl⟩
  · exact .inr ⟨rfl, rfl⟩
  · exact .inl (Finishes.recoverMethod.andThen fun _ => .pure)

theorem copiesTurn_declarationTurn (hc : c.Extends c') :
    CopiesTurn .nothing c c' declarationTurn declarationTurn := by
  refine .of_peek fun k => ?_
  split
  · exact .inl (Finishes.constantDeclaration.andThen fun _ => .pure)
  · exact .inl ((Finishes.classDeclaration hc).andThen fun _ => .pure)
  · exact .inl ((Finishes.variableDeclaration hc).andThen fun _ => .pure)
  · exact .inr ⟨rfl, rfl⟩
  · exact .inr ⟨rfl, rfl⟩
  · exact .inl (Finishes.recoverDeclaration.andThen fun _ => .pure)

namespace Consumes

theorem methodTurn {m : Tree.Method} (hm : m.body.NearestElse) :
    Consumes c methodTurn m.yield (fun _ => True) (· = true) := by
  have hmethod : Consumes c (do methodDeclaration; return true) m.yield (fun _ => True) (· = true) :=
    turn (.of_obeys (Obeys.methodDeclaration (Γ := World.initial.context) hm))
  refine peek (p := fun k => k = .identifier ∨ k = .voidWord) (fun rest _ => ?_) ?_
  · rw [m.yield_eq, List.append_assoc]
    exact m.nextKind_front _
  · rintro _ (rfl | rfl) <;> exact hmethod

theorem declarationTurn (d : Declaration) :
    Consumes c declarationTurn d.yield (fun _ => True) (· = true) := by
  cases d with
  | constant t n l =>
    refine peek (p := (· = .finalWord)) (fun _ _ => rfl) ?_
    rintro _ rfl
    exact turn (.of_obeys (@Obeys.constantDeclaration (fun _ => none) World.initial.context n c _
      c.options t l))
  | vars vs =>
    refine peek (p := (· = .identifier)) (fun _ _ => rfl) ?_
    rintro _ rfl
    exact turn (.of_obeys (@Obeys.variableDeclaration (fun _ => none) World.initial.context c _ vs))
  | record n vs =>
    refine peek (p := (· = .classWord)) (fun _ _ => rfl) ?_
    rintro _ rfl
    exact turn (.of_obeys (Obeys.classDeclaration (Γ := World.initial.context)))

theorem opening (n : String) :
    Consumes c opening [.word .programWord, .name n] (fun _ => True) fun _ => True := by
  have hstill : ∀ name, Keeps c (Still c) (do
      let id ← declare .program name .none
      openScope
      return id) := fun name =>
    .bind still_declare fun _ => .bind still_withTable fun _ => .pure _
  refine bind (H := fun _ => True)
    (.token (t := .word .programWord) World.Checks.runs_expect_terminal) (fun _ _ => ?_) fun _ _ => trivial
  exact bind (H := fun _ => True) (.token (t := .name n) World.Checks.runs_identifier_terminal)
    (fun name _ => .of_still fun _ _ _ hrun => hstill name hrun) fun _ _ => trivial

theorem middle : Consumes c middle [.word .leftBrace] (fun _ => True) fun _ => True := by
  refine bind (.of_still fun _ _ _ hrun => Keeps.read hrun) (fun c' _ => ?_) fun _ _ => trivial
  refine bind (.of_still fun _ _ _ hrun => still_of_acts acts_table hrun) (fun t _ => ?_)
    fun _ _ => trivial
  refine bind (.of_still fun _ _ _ hrun => still_of_acts (acts_reportIf rfl) hrun)
    (fun _ _ => .token World.Checks.runs_expect_terminal) fun _ _ => trivial

end Consumes

/-! ### Programs -/

theorem copies_opening : Copies d c c' opening opening :=
  .bind .expect fun _ => .bind .identifier fun _ => .bind .declare fun _ => .bind .updateTable fun _ =>
    .pure

theorem finishes_middle (hc : c.Extends c') : Finishes .nothing c c' middle middle := by
  refine .read ?_
  rw [hc.options]
  exact .before .table fun _ => .before .reportIf fun _ => .expect

theorem copies_closing (hc : c.Extends c') (id : EntryId) :
    Copies .token c c' (closing id) (closing id) := by
  refine .get fun s s' _ hassembly => .read ?_
  rw [hc.options, hassembly]
  exact .bind .reportIf fun _ => .bind .expect fun _ => .bind .closeScope fun _ => .updateEntry

theorem copies_methods (hc : c.Extends c') : Copies .token c c' methods methods :=
  .repeatWhile hc (copiesTurn_methodTurn hc).copies

theorem copies_declarations (hc : c.Extends c') : Copies .token c c' declarations declarations :=
  .repeatWhile hc (copiesTurn_declarationTurn hc).copies

namespace Crosses

/-- The place is in the methods of the program. -/
theorem programInMethods {q : Program} (hc : c.Extends c')
    (h : Crosses I c c' (fun _ => True) methods methods pre post (· = .rightBrace)) :
    Crosses I c c' (fun _ => True) program program
      ([.word .programWord, .name q.name] ++ (q.declarations.flatMap Declaration.yield ++
        ([.word .leftBrace] ++ pre))) (post ++ [.word .rightBrace]) F := by
  have hpost : ∀ rest, F (nextKind rest) → post ++ [.word .rightBrace] ++ rest ≠ [] := fun _ _ => by simp
  rw [program_parts]
  refine part (d := .nothing) copies_opening (.inl rfl) (.opening q.name) (fun _ _ => trivial) hpost
    fun id => ?_
  refine part (copies_declarations hc) (.inr (by simp))
    (.of_obeys (Obeys.declarations q.declarations World.initial.context)) (fun _ _ => rfl) hpost
    fun _ => ?_
  refine part (finishes_middle hc).copies (.inl rfl) (.middle) (fun _ _ => trivial) hpost
    fun _ => ?_
  exact h.andThen (fun _ => copies_closing hc id) fun _ _ => rfl

/-- The place is in the declarations of the program. -/
theorem programInDeclarations {q : Program} (hc : c.Extends c')
    (h : Crosses I c c' SymbolTable.Reachable declarations declarations pre post (· = .leftBrace)) :
    Crosses I c c' SymbolTable.Reachable program program ([.word .programWord, .name q.name] ++ pre)
      (post ++ .word .leftBrace :: (q.methods.flatMap Tree.Method.yield ++ [.word .rightBrace])) F := by
  rw [program_parts]
  refine step (d := .nothing) copies_opening (.inl rfl) (.opening q.name) (fun _ _ => trivial)
    (fun _ _ => by simp) (fun s id s₁ hrun hs => ?_) fun id => h.andThen (d := .token) (fun _ => ?_)
      fun _ _ => rfl
  · have ht := (evolves_opening (c := c) hs).table
    rw [show opening.outcome c s = (.ok id, s₁) from hrun] at ht
    exact hs.evolves ht
  · exact .bind (finishes_middle hc).copying fun _ => .bind (copies_methods hc) fun _ =>
      copies_closing hc id

/-! ### Lists of methods and declarations -/

/-- Methods are in front of the one in which the place is, or of the place. -/
theorem behindMethods (hc : c.Extends c')
    (h : ∀ n n', n < n' → Crosses I c c' (fun _ => True) (turns methodTurn n) (turns methodTurn n') pre
      post (· = .rightBrace)) :
    ∀ ms : List Tree.Method, (∀ m ∈ ms, m.body.NearestElse) → ∀ n n', n < n' →
      Crosses I c c' (fun _ => True) (turns methodTurn n) (turns methodTurn n')
        (ms.flatMap Tree.Method.yield ++ pre) post (· = .rightBrace)
  | [], _ => h
  | m :: ms, hms => by
    rw [List.flatMap_cons, List.append_assoc]
    refine turns_next (copiesTurn_methodTurn hc) (Nat.le_refl _) (.methodTurn (hms m List.mem_cons_self))
      (fun _ _ => trivial) (fun rest hrest hnil => ?_) (fun _ _ _ _ _ => trivial)
      (behindMethods hc h ms fun m hm => hms m (List.mem_cons_of_mem _ hm))
    rw [(List.append_eq_nil_iff.1 hnil).2] at hrest
    contradiction

/-- Declarations are in front of the place. -/
theorem behindDeclarations (hc : c.Extends c')
    (h : ∀ n n', n < n' → Crosses I c c' SymbolTable.Reachable (turns declarationTurn n)
      (turns declarationTurn n') pre post (· = .leftBrace)) :
    ∀ (ds : List Declaration) (n n' : Nat), n < n' →
      Crosses I c c' SymbolTable.Reachable (turns declarationTurn n) (turns declarationTurn n')
        (ds.flatMap Declaration.yield ++ pre) post (· = .leftBrace)
  | [] => h
  | d :: ds => by
    rw [List.flatMap_cons, List.append_assoc]
    refine turns_next (copiesTurn_declarationTurn hc) (Nat.le_refl _) (.declarationTurn d)
      (fun _ _ => trivial) (fun rest hrest hnil => ?_) (fun s b s₁ hrun hs => (evolving_declarationTurn.of_runs hs hrun).1)
      (behindDeclarations hc h ds)
    rw [(List.append_eq_nil_iff.1 hnil).2] at hrest
    contradiction

/-- The place is between two methods, or in front of the first or behind the last one. -/
theorem methodsHere (hc : c.Extends c') (hroom : c.bound < c'.bound) (hI : I.SkippedAtMethods)
    (hlength : I.length ≤ c'.bound) {ms : List Tree.Method} (hms : ∀ m ∈ ms, m.body.NearestElse) :
    Crosses I c c' (fun _ => True) methods methods (ms.flatMap Tree.Method.yield) post
      (· = .rightBrace) := by
  rw [methods_eq, ← List.append_nil (ms.flatMap _)]
  refine repeatWhile hroom (behindMethods hc (fun n n' hn => ?_) ms hms)
  exact turns_here (copiesTurn_methodTurn hc)
    (fun _ _ _ _ _ _ _ _ _ hp hplace => hI.runs hlength hp hplace) n n' hn

/-- The place is between two declarations, or in front of the first or behind the last one. -/
theorem declarationsHere (hc : c.Extends c') (hroom : c.bound < c'.bound)
    (hI : I.SkippedAtDeclarations) (hlength : I.length ≤ c'.bound) (ds : List Declaration) :
    Crosses I c c' SymbolTable.Reachable declarations declarations (ds.flatMap Declaration.yield) post
      (· = .leftBrace) := by
  rw [declarations_eq, ← List.append_nil (ds.flatMap _)]
  refine repeatWhile hroom (behindDeclarations hc (fun n n' hn => ?_) ds)
  refine turns_here (copiesTurn_declarationTurn hc) (fun n s u s₁ s' hrun hm hnamed hs hp hplace => ?_)
    n n' hn
  refine hI.runs hlength hp hplace fun hk => ?_
  -- the declaration that follows is read without a mistake
  cases n with
  | zero => exact absurd hrun runs_throw
  | succ n =>
    obtain ⟨b, s₂, hturn, h⟩ := runs_turns_succ.1 hrun
    obtain ⟨_, _, hpeek, hturn⟩ := runs_bind.1 hturn
    obtain ⟨rfl, rfl⟩ := runs_peek.1 hpeek
    rw [hk] at hturn
    obtain ⟨_, s₃, hvariables, hret⟩ := runs_bind.1 hturn
    obtain ⟨rfl, rfl⟩ := runs_pure.1 hret
    have hfinishes : Finishes .nothing c c _ _ := Finishes.variableDeclaration ⟨rfl, Nat.le_refl _⟩
    have hle := (hfinishes.copies.later hvariables).mistakes
    have hle' := (((copiesTurn_declarationTurn ⟨rfl, Nat.le_refl _⟩).turns (Nat.le_refl n)).later
      (h.resolve_right fun h => absurd h.1 (by simp)).2).mistakes
    exact isType_of_variableDeclaration hvariables (by omega) hs hk (hnamed.current hk)

/-- The place is in the block of a method. -/
theorem methodsInside (hc : c.Extends c') (hroom : c.bound < c'.bound) (hI : I.SkippedInBlock)
    (hlength : I.length ≤ c'.bound) {ms ms' : List Tree.Method} {m : Tree.Method}
    (hms : ∀ m ∈ ms, m.body.NearestElse) (hm : m.body.Splits pre post)
    (hnearest : m.body.NearestElse) :
    Crosses I c c' (fun _ => True) methods methods (ms.flatMap Tree.Method.yield ++ (m.front ++ pre))
      (post ++ [.word .rightBrace] ++ ms'.flatMap Tree.Method.yield) (· = .rightBrace) := by
  have hmethod : Crosses I c c' (fun _ => True) (do Production.methodDeclaration; return true)
      (do Production.methodDeclaration; return true) (m.front ++ pre)
      (post ++ [.word .rightBrace] ++ []) (fun _ => True) :=
    (methodDeclaration (F := fun _ => True) hc hroom hI hlength hm hnearest).andThen (d := .nothing)
      (fun _ => .pure) fun _ _ => trivial
  rw [List.append_nil] at hmethod
  rw [methods_eq]
  refine repeatWhile hroom (behindMethods hc (fun n n' hn => ?_) ms hms)
  refine turns_inside (H := fun _ => True) (copiesTurn_methodTurn hc) ?_ (fun _ _ => trivial)
    (Nat.le_of_lt hn)
  refine peek (p := fun k => k = .identifier ∨ k = .voidWord) (copiesTurn_methodTurn hc).copies.keeps
    (by simp [Method.front]) (fun rest _ => ?_) ?_
  · rw [List.append_assoc]
    exact m.nextKind_front _
  · rintro _ (rfl | rfl) <;> exact hmethod

end Crosses

end Production

end MicroJava
