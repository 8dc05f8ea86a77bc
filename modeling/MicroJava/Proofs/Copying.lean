import MicroJava.Proofs.Pairing

/-!
# Productions copy themselves

From paired sessions, the productions of the grammar do the same as long as no mistake is made.
Expressions and what consists of them are followed by a token that they look at; declarations and methods
end with a token that is theirs, and so do statements, behind which there is at most an `else`.
-/

namespace MicroJava.Production

variable {α β : Type} {c c' : Setting} {d : Lookahead}

namespace Copies

/-! ### Names, symbols and code -/

theorem identifier : Copies d c c' identifier identifier := by
  intro s name s₁ hrun
  rcases runs_identifier.1 hrun with ⟨hk, rfl, rfl⟩ | ⟨-, -, rfl⟩
  · refine ⟨.advance s, fun _ V s' hp hlimit => ⟨s'.advance, ?_, hp.advance⟩⟩
    have hsame := hp.current hlimit.le
    exact runs_identifier.2 (.inl ⟨hsame.kind.trans hk, (hsame.name hk).symm, rfl⟩)
  · refine ⟨.report, fun hm => ?_⟩
    rw [Session.mistakes_report] at hm
    omega

theorem literal : Copies d c c' literal literal := by
  intro s v s₁ hrun
  obtain ⟨rfl, rfl⟩ := runs_literal.1 hrun
  refine ⟨.advance s, fun _ V s' hp hlimit => ⟨s'.advance, ?_, hp.advance⟩⟩
  exact runs_literal.2 ⟨(hp.current hlimit.le).literal.symm, rfl⟩

theorem table : Copies d c c' table table := by
  intro s t s₁ hrun
  obtain ⟨rfl, rfl⟩ := runs_table.1 hrun
  exact ⟨.refl s₁, fun _ V s' hp _ => ⟨s', runs_table.2 ⟨hp.table.symm, rfl⟩, hp⟩⟩

theorem withTable {f : SymbolTable → α × SymbolTable} :
    Copies d c c' (modifyGet (·.withTable f)) (modifyGet (·.withTable f)) := by
  intro s a s₁ hrun
  obtain ⟨rfl, rfl⟩ := runs_modifyGet.1 hrun
  refine ⟨.of_beside ⟨rfl, rfl, rfl⟩, fun _ V s' hp _ => ⟨(s'.withTable f).2, ?_, ?_⟩⟩
  · exact runs_modifyGet.2 ⟨by simp only [Session.withTable, hp.table], rfl⟩
  · exact ⟨hp.started, hp.taken, hp.first, hp.second, by simp only [Session.withTable, hp.table],
      hp.assembly, hp.returnType, hp.reports⟩

theorem withAssembly {f : Assembly → α × Assembly} :
    Copies d c c' (modifyGet (·.withAssembly f)) (modifyGet (·.withAssembly f)) := by
  intro s a s₁ hrun
  obtain ⟨rfl, rfl⟩ := runs_modifyGet.1 hrun
  refine ⟨.of_beside ⟨rfl, rfl, rfl⟩, fun _ V s' hp _ => ⟨(s'.withAssembly f).2, ?_, ?_⟩⟩
  · exact runs_modifyGet.2 ⟨by simp only [Session.withAssembly, hp.assembly], rfl⟩
  · exact ⟨hp.started, hp.taken, hp.first, hp.second, hp.table,
      by simp only [Session.withAssembly, hp.assembly], hp.returnType, hp.reports⟩

theorem setReturnType {t : TypeId} : Copies d c c' (setReturnType t) (setReturnType t) := by
  intro s u s₁ hrun
  obtain rfl := runs_modify.1 hrun
  exact ⟨.of_beside ⟨rfl, rfl, rfl⟩, fun _ V s' hp _ => ⟨_, runs_modify.2 rfl,
    ⟨hp.started, hp.taken, hp.first, hp.second, hp.table, hp.assembly, rfl, hp.reports⟩⟩⟩

theorem updateTable {f : SymbolTable → SymbolTable} :
    Copies d c c' (updateTable f) (updateTable f) := withTable

theorem updateEntry {id : EntryId} {f : Entry → Entry} :
    Copies d c c' (updateEntry id f) (updateEntry id f) := updateTable

theorem updateMethod {id : EntryId} {f : Method → Method} :
    Copies d c c' (updateMethod id f) (updateMethod id f) := updateEntry

theorem arrayOf {t : TypeId} : Copies d c c' (arrayOf t) (arrayOf t) := withTable

theorem closeScope : Copies d c c' closeScope closeScope := withTable

theorem entry {id : EntryId} : Copies d c c' (entry id) (entry id) := by
  refine bind table fun t => ?_
  split
  · exact pure
  · exact throw

theorem descriptor {t : TypeId} : Copies d c c' (descriptor t) (descriptor t) := by
  refine bind table fun t => ?_
  split
  · exact pure
  · exact throw

theorem declare {category : Category} {n : String} {t : TypeId} :
    Copies d c c' (declare category n t) (declare category n t) := by
  refine ite pure (bind withTable fun r => ?_)
  split
  · exact pure
  · exact reported fun _ => .pure _

theorem find {n : String} : Copies d c c' (find n) (find n) := by
  refine ite pure (bind table fun t => ?_)
  split
  · exact pure
  · exact reported fun _ => .pure _

theorem findField {n : String} {t : TypeId} : Copies d c c' (findField n t) (findField n t) := by
  refine bind table fun ts => ?_
  split
  · exact pure
  · exact reported fun _ => .pure _

theorem write {e : Emission Fault α} : Copies d c c' (write e) (write e) := by
  refine bind withAssembly fun r => ?_
  split
  · exact pure
  · exact throw

theorem attempt {e : Emission Problem Unit} : Copies d c c' (attempt e) (attempt e) := by
  refine bind withAssembly fun r => ?_
  split
  · exact pure
  · exact report

theorem emit {op : Opcode} {operands : List Int} :
    Copies d c c' (emit op operands) (emit op operands) := write

theorem load {x : Operand} : Copies d c c' (load x) (load x) := attempt

theorem fits {x : Operand} {t : TypeId} : Copies d c c' (fits x t) (fits x t) :=
  bind (discard descriptor) fun _ => bind (discard descriptor) fun _ => bind table fun _ => pure

theorem comparable {t u : TypeId} : Copies d c c' (comparable t u) (comparable t u) :=
  bind (discard descriptor) fun _ => bind (discard descriptor) fun _ => bind table fun _ => pure

theorem expect {k : Token.Kind} : Copies d c c' (expect k) (expect k) := Finishes.expect.copying

theorem namedType : Copies d c c' namedType namedType :=
  bind identifier fun _ => bind find fun _ => bind entry fun _ =>
    ite pure (bind reportIf fun _ => pure)

theorem type : Copies .token c c' type type :=
  bind namedType fun _ => bind check fun _ =>
    ite (bind advance fun _ => bind expect fun _ => arrayOf) pure

/-! ### Expressions -/

theorem namedOperand : Copies d c c' namedOperand namedOperand := by
  refine bind identifier fun _ => bind find fun _ => bind entry fun _ => ?_
  split
  · exact pure
  · exact reported fun _ => .pure _

theorem fieldOf {x : Operand} : Copies d c c' (fieldOf x) (fieldOf x) := by
  refine bind descriptor fun d => ite ?_ ?_
  · exact bind load fun _ => bind identifier fun _ => bind findField fun _ =>
      ite pure (bind entry fun _ => pure)
  · exact reported fun _ =>
      .bind (.discard (identifier : Copies .nothing c c _ _).keeps) fun _ => .pure _

theorem afterMember {count : Nat} : Copies .token c c' (afterMember count) (afterMember count) :=
  bind check fun _ => ite (bind advance fun _ => pure) pure

theorem checkArgument {x : Operand} : ∀ t : Option TypeId,
    Copies d c c' (checkArgument x t) (checkArgument x t)
  | some _ => bind fits fun _ => reportIf
  | none => pure

theorem checkCount {wanted : Option Nat} {count : Nat} {tooFew tooMany : Problem} :
    Copies d c c' (checkCount wanted count tooFew tooMany)
      (checkCount wanted count tooFew tooMany) := by
  cases wanted with
  | none => exact pure
  | some n => exact ite report (ite report pure)

theorem announcement : Copies .token c c' announcement announcement :=
  bind check fun _ => ite (bind literal fun _ => pure) (bind expect fun _ => pure)

theorem newArrayOf {length : Int32} : ∀ t : Option TypeId,
    Copies d c c' (newArrayOf length t) (newArrayOf length t)
  | some _ => write
  | none => pure

theorem callee {x : Operand} : Copies d c c' (callee x) (callee x) := by
  unfold Production.callee
  split
  · exact bind entry fun _ => pure
  · exact pure

theorem extraType : ∀ (variadic : Bool) (last : Option TypeId),
    Copies d c c' (extraType variadic last) (extraType variadic last)
  | true, some _ => map (map descriptor)
  | true, none => pure
  | false, _ => pure

theorem targetSignature : ∀ target : Option (EntryId × Method),
    Copies d c c' (targetSignature target) (targetSignature target)
  | none => pure
  | some _ => bind (mapM (fun _ => bind entry fun _ => pure) _) fun _ =>
    bind (extraType _ _) fun _ => pure

theorem result {t : TypeId} : ∀ target : Option (EntryId × Method),
    Copies d c c' (result t target) (result t target)
  | none => pure
  | some _ => by
    refine bind ?_ fun _ => pure
    unfold invoke
    split
    · exact emit
    · exact pure
    · exact pure
    · exact write

section Expressions

variable (hc : c.Extends c') {E E' : Production Operand} (hE : Copies .token c c' E E')

theorem members {member member' : Nat → Production (Nat ⊕ Nat)} (hc : c.Extends c')
    (hm : ∀ n, Copies .token c c' (member n) (member' n)) :
    Copies .token c c' (members member) (members member') :=
  bind checkAny fun _ => ite (loop hc hm 0) pure

include hE

theorem loadInteger {mistake : Problem} :
    Copies .token c c' (loadInteger E mistake) (loadInteger E' mistake) :=
  bind hE fun _ => bind reportIf fun _ => load

theorem elementOf {x : Operand} : Copies .token c c' (elementOf E x) (elementOf E' x) :=
  bind descriptor fun _ => bind (ite load report) fun _ => bind (loadInteger hE) fun _ =>
    bind expect fun _ => pure

theorem designatorStep {x : Operand} :
    Copies .token c c' (designatorStep E x) (designatorStep E' x) := by
  refine bind peek fun k => ?_
  split
  · exact bind advance fun _ => bind fieldOf fun _ => pure
  · exact bind advance fun _ => bind (elementOf hE) fun _ => pure
  · exact pure

theorem argument {s : Signature} {count : Nat} :
    Copies .token c c' (argument E s count) (argument E' s count) :=
  bind hE fun _ => bind (checkArgument _) fun _ => bind load fun _ => afterMember

theorem packArgument {count : Nat} : ∀ t : Option TypeId,
    Copies .token c c' (packArgument E count t) (packArgument E' count t)
  | none => discard hE
  | some _ => bind emit fun _ => bind write fun _ => bind hE fun _ =>
    bind (checkArgument _) fun _ => bind load fun _ => write

include hc

theorem designator : Copies .token c c' (designator E) (designator E') :=
  bind namedOperand fun x => loop hc (fun _ => designatorStep hE) x

theorem extraArguments {t : Option TypeId} :
    Copies .token c c' (extraArguments E t) (extraArguments E' t) :=
  bind advance fun _ => bind announcement fun _ => bind (newArrayOf t) fun _ =>
    bind (members hc fun _ => bind (packArgument hE t) fun _ => afterMember) fun _ => checkCount

theorem variablePart {isMethod : Bool} {t : Option TypeId} :
    Copies .token c c' (variablePart E isMethod t) (variablePart E' isMethod t) :=
  bind check fun _ => ite (bind reportIf fun _ => extraArguments hc hE) (newArrayOf t)

theorem call {x : Operand} : Copies .token c c' (call E x) (call E' x) :=
  bind callee fun _ => bind reportIf fun _ => bind expect fun _ => bind (targetSignature _) fun _ =>
    bind (members hc fun _ => argument hE) fun _ => bind checkCount fun _ =>
      bind (variablePart hc hE) fun _ => bind expect fun _ => result _

omit hc in
theorem creation : Copies .token c c' (creation E) (creation E') :=
  bind namedType fun _ => bind check fun _ => ite
    (bind advance fun _ => bind (loadInteger hE) fun _ => bind expect fun _ => bind write fun _ =>
      bind arrayOf fun _ => pure)
    (bind descriptor fun _ => ite (bind write fun _ => pure) (bind reportIf fun _ => pure))

theorem designatorFactor : Copies .token c c' (designatorFactor E) (designatorFactor E') :=
  bind (designator hc hE) fun _ => bind check fun _ =>
    ite (bind reportIf fun _ => call hc hE) pure

theorem factor : Copies .token c c' (factor E) (factor E') := by
  refine bind peek fun k => ?_
  split
  · exact designatorFactor hc hE
  · exact bind literal fun _ => pure
  · exact bind literal fun _ => pure
  · exact bind advance fun _ => creation hE
  · exact bind advance fun _ => bind hE fun _ => bind expect fun _ => pure
  · exact reported fun _ => .pure _

omit hc hE in
theorem operation {operator? : Token.Kind → Option Opcode} {operand operand' : Production Operand}
    {x : Operand} (hy : Copies .token c c' operand operand') :
    Copies .token c c' (operation operator? operand x) (operation operator? operand' x) := by
  refine bind peek fun k => ?_
  split
  · exact pure
  · exact bind advance fun _ => bind load fun _ => bind hy fun _ => bind load fun _ =>
      bind reportIf fun _ => bind emit fun _ => pure

theorem term : Copies .token c c' (term E) (term E') :=
  bind (factor hc hE) fun x => loop hc (fun _ => operation (factor hc hE)) x

omit hc hE in
theorem negate {x : Operand} : Copies d c c' (negate x) (negate x) := by
  refine ite (reported fun _ => .pure _) ?_
  split
  · exact pure
  · exact bind load fun _ => bind emit fun _ => pure

theorem firstTerm : Copies .token c c' (firstTerm E) (firstTerm E') :=
  bind check fun _ => ite (bind advance fun _ => bind (term hc hE) fun _ => negate) (term hc hE)

theorem sum : Copies .token c c' (sum E) (sum E') :=
  bind (firstTerm hc hE) fun x => loop hc (fun _ => operation (term hc hE)) x

end Expressions

theorem nestedExpression (hc : c.Extends c') : ∀ {depth depth' : Nat}, depth ≤ depth' →
    Copies .token c c' (nestedExpression depth) (nestedExpression depth')
  | 0, _, _ => throw
  | _ + 1, _ + 1, h => sum hc (nestedExpression hc (Nat.le_of_succ_le_succ h))

theorem expression (hc : c.Extends c') : Copies .token c c' expression expression :=
  read (nestedExpression hc hc.bound)

/-! ### Conditions -/

theorem comparison : Copies .token c c' comparison comparison := by
  refine bind peek fun k => ?_
  split
  · exact bind advance fun _ => pure
  · exact reported fun _ => .pure _

theorem checkComparison {x y : Operand} {o : Option Comparison} :
    Copies d c c' (checkComparison x y o) (checkComparison x y o) :=
  bind comparable fun _ => ite (bind descriptor fun _ => reportIf) report

section Conditions

variable (hc : c.Extends c')

include hc

theorem test {l l' : Label} : Copies .token c c' (test l l') (test l l') :=
  bind (expression hc) fun _ => bind load fun _ => bind comparison fun _ =>
    bind (expression hc) fun _ => bind load fun _ => bind checkComparison fun _ => pure

theorem conjunctionStep {l l' : Label} {b : Branch} :
    Copies .token c c' (conjunctionStep l l' b) (conjunctionStep l l' b) :=
  bind check fun _ => ite (bind advance fun _ => bind write fun _ => bind (test hc) fun _ => pure) pure

theorem conjunction {l : Label} : Copies .token c c' (conjunction l) (conjunction l) :=
  bind write fun _ => bind (test hc) fun b => loop hc (fun _ => conjunctionStep hc) b

theorem conditionStep {l : Label} {b : Branch} :
    Copies .token c c' (conditionStep l b) (conditionStep l b) :=
  bind check fun _ => ite (bind advance fun _ => bind write fun _ => bind write fun _ =>
    bind (conjunction hc) fun _ => pure) pure

theorem condition : Copies .token c c' condition condition :=
  bind write fun _ => bind (conjunction hc) fun b => loop hc (fun _ => conditionStep hc) b

/-! ### Parts of statements -/

theorem assignment {x : Operand} {operator : Option Opcode} :
    Copies .token c c' (assignment x operator) (assignment x operator) :=
  bind (ite pure (ite attempt report)) fun _ => bind (expression hc) fun _ => bind reportIf fun _ =>
    bind fits fun _ => ite attempt report

omit hc in
theorem increment {x : Operand} {step : Int32} :
    Copies d c c' (increment x step) (increment x step) := by
  refine ite report ?_
  split
  · exact write
  · exact attempt

theorem callAlone {x : Operand} : Copies .token c c' (callAlone x) (callAlone x) :=
  bind (call hc (expression hc)) fun _ => ite emit pure

theorem designatorAction {x : Operand} :
    Copies .token c c' (designatorAction x) (designatorAction x) := by
  refine bind peek fun k => ?_
  split
  · exact bind advance fun _ => assignment hc
  · split
    · exact callAlone hc
    · exact bind advance fun _ => increment
    · exact bind advance fun _ => increment
    · exact report

theorem returnValue {t : TypeId} : Copies .token c c' (returnValue t) (returnValue t) :=
  bind checkAny fun _ => ite
    (bind (expression hc) fun _ => ite report (bind fits fun _ => bind load fun _ => reportIf)) reportIf

omit hc in
theorem readInto {x : Operand} : Copies d c c' (readInto x) (readInto x) := by
  unfold Production.readInto
  split
  · exact bind emit fun _ => attempt
  · exact report

theorem printWidth : Copies .token c c' printWidth printWidth := by
  refine read ?_
  rw [hc.options]
  exact bind check fun _ => ite
    (bind advance fun _ => bind check fun _ => ite literal (bind expect fun _ => pure)) pure

omit hc in
theorem emitPrint {t : TypeId} : Copies d c c' (emitPrint t) (emitPrint t) := by
  unfold Production.emitPrint
  split
  · exact emit
  · exact pure

end Conditions

/-! ### Parts of declarations -/

theorem constantValue {id : EntryId} {t : TypeId} :
    Copies .token c c' (constantValue id t) (constantValue id t) := by
  refine bind peek fun k => ?_
  split
  · exact bind reportIf fun _ => bind literal fun _ => updateEntry
  · exact report

theorem countGlobal {id : EntryId} : Copies d c c' (countGlobal id) (countGlobal id) :=
  bind table fun _ => ite write pure

theorem variableName {t : TypeId} : Copies .token c c' (variableName t) (variableName t) :=
  bind identifier fun _ => bind declare fun _ => bind countGlobal fun _ => bind check fun _ =>
    ite (bind advance fun _ => pure) pure

theorem parameter {u : Unit} : Copies .token c c' (parameter u) (parameter u) :=
  bind type fun _ => bind identifier fun _ => bind declare fun _ => bind check fun _ => ite
    (bind advance fun _ => bind arrayOf fun _ => bind updateEntry fun _ => pure)
    (bind check fun _ => ite (bind advance fun _ => pure) pure)

theorem parameters (hc : c.Extends c') : Copies .token c c' parameters parameters :=
  bind check fun _ => ite (loop hc (fun _ => parameter) ()) pure

theorem resultType : Copies .token c c' resultType resultType :=
  bind check fun _ => ite (bind advance fun _ => pure) type

theorem header (hc : c.Extends c') {id : EntryId} : Copies .token c c' (header id) (header id) :=
  bind expect fun _ => bind (parameters hc) fun _ => bind expect fun _ => bind table fun _ =>
    bind updateMethod fun _ => pure

theorem beginning {id : EntryId} {isEntry : Bool} {parameters size : Nat} :
    Copies d c c' (beginning id isEntry parameters size) (beginning id isEntry parameters size) :=
  bind write fun _ => bind updateMethod fun _ => bind write fun _ => write

theorem ending {t : TypeId} : Copies d c c' (ending t) (ending t) :=
  ite (bind emit fun _ => emit) emit

end Copies

/-! ### Recovery -/

section Recovery

open Session

theorem later_skipUntil {found : Production Bool} (hf : Keeps c Later found) :
    Keeps c Later (skipUntil found) :=
  .repeatWhile (.bind (Copies.advance : Copies .nothing c c _ _).keeps fun _ => .bind hf fun _ =>
    .pure _)

theorem later_resume : Keeps c Later resume := fun _ _ _ hrun => runs_resume.1 hrun ▸ .resume

theorem later_takeIf {k : Token.Kind} : Keeps c Later (takeIf k) :=
  .bind .check fun _ => .ite (fun _ => (Copies.advance : Copies .nothing c c _ _).keeps) fun _ => .pure _

theorem later_atTypeName : Keeps c Later atTypeName := by
  refine .bind .get fun s => .ite (fun _ => .pure _) fun _ =>
    .bind (Copies.table : Copies .nothing c c _ _).keeps fun t => ?_
  split
  · exact .pure _
  · exact .bind (Copies.entry : Copies .nothing c c _ _).keeps fun _ => .pure _

end Recovery

namespace Finishes

open Copies (bind)

variable {m' : Production Unit}

/-- A recovery starts with a report. -/
theorem recoverDeclaration : Finishes d c c' recoverDeclaration m' := by
  refine reported fun _ => .bind (later_skipUntil ?_) fun _ => later_resume
  refine .bind .checkAny fun _ => .ite (fun _ => .pure _) fun _ => .bind .get fun _ => ?_
  exact .ite (fun _ => .pure _) fun _ => later_atTypeName

theorem recoverMethod : Finishes d c c' recoverMethod m' :=
  reported fun _ => .bind (later_skipUntil .checkAny) fun _ => later_resume

theorem recoverStatement : Finishes d c c' recoverStatement m' :=
  reported fun _ => .bind (later_skipUntil .checkAny) fun _ => .bind later_takeIf fun _ => later_resume

/-! ### Statements -/

section Statements

variable (hc : c.Extends c')

include hc

theorem guardCondition : Finishes d c c' guardCondition guardCondition :=
  before .expect fun _ => before (.condition hc) fun _ => expect.andThen fun _ =>
    bind .write fun _ => bind .write fun _ => .pure

theorem designatorStatement : Finishes d c c' designatorStatement designatorStatement :=
  before (.designator hc (.expression hc)) fun _ => before (.designatorAction hc) fun _ => expect

omit hc in
theorem breakStatement {exit : Option Label} :
    Finishes d c c' (breakStatement exit) (breakStatement exit) := by
  refine before .advance fun _ => before ?_ fun _ => expect
  cases exit
  · exact .report
  · exact .write

theorem returnStatement : Finishes d c c' returnStatement returnStatement := by
  refine advance.andThen fun _ => .get fun s s' htype _ => ?_
  rw [htype]
  exact (before (.returnValue hc) fun _ => before .emit fun _ => before .emit fun _ => expect).copies

theorem readStatement : Finishes d c c' readStatement readStatement :=
  before .advance fun _ => before .expect fun _ => before (.designator hc (.expression hc)) fun _ =>
    before .readInto fun _ => before .expect fun _ => expect

theorem printStatement : Finishes d c c' printStatement printStatement :=
  before .advance fun _ => before .expect fun _ => before (.expression hc) fun _ =>
    before .reportIf fun _ => before .load fun _ => before (.printWidth hc) fun _ =>
      before .write fun _ => before .emitPrint fun _ => before .expect fun _ => expect

variable {S S' : Option Label → Production Unit}
  (hS : ∀ exit, Finishes .whetherElse c c' (S exit) (S' exit))
  {exit : Option Label}

include hS

omit hc in
theorem copies_otherwise {b : Branch} :
    Copies .whetherElse c c' (otherwise S exit b) (otherwise S' exit b) :=
  bind .checkElse fun _ => .ite (bind .advance fun _ => bind .write fun _ => bind .write fun _ =>
    bind .write fun _ => bind (hS exit).copies fun _ => .write) .write

theorem ifStatement : Finishes .whetherElse c c' (ifStatement S exit) (ifStatement S' exit) :=
  advance.andThen fun _ => bind (guardCondition hc).copies fun _ => bind (hS exit).copies fun _ =>
    copies_otherwise hS

theorem whileStatement : Finishes .whetherElse c c' (whileStatement S) (whileStatement S') :=
  advance.andThen fun _ => bind .write fun _ => bind .write fun _ =>
    bind (guardCondition hc).copies fun _ => bind .write fun exit =>
      bind (hS (some exit)).copies fun _ => bind .write fun _ => bind .write fun _ => .write

theorem blockOf : Finishes d c c' (blockOf S exit) (blockOf S' exit) := by
  refine before .expect fun _ => before (.repeatWhile hc (bind .peek fun k => ?_)) fun _ => expect
  split
  · exact .pure
  · exact .pure
  · exact bind (hS exit).copies.sighted fun _ => .pure

theorem statementOf : Finishes .whetherElse c c' (statementOf S exit) (statementOf S' exit) := by
  refine before .peek fun k => ?_
  split
  · exact designatorStatement hc
  · exact ifStatement hc hS
  · exact whileStatement hc hS
  · exact breakStatement
  · exact returnStatement hc
  · exact readStatement hc
  · exact printStatement hc
  · exact blockOf hc hS
  · exact advance
  · exact recoverStatement

end Statements

theorem nestedStatement (hc : c.Extends c') : ∀ {depth depth' : Nat}, depth ≤ depth' →
    ∀ exit, Finishes .whetherElse c c' (nestedStatement depth exit) (nestedStatement depth' exit)
  | 0, _, _, _ => throw
  | _ + 1, _ + 1, h, _ => statementOf hc (nestedStatement hc (Nat.le_of_succ_le_succ h))

theorem read {f f' : Setting → Production α} (hf : Finishes d c c' (f c) (f' c')) :
    Finishes d c c' (MonadReader.read >>= f) (MonadReader.read >>= f') := by
  refine ⟨.read hf.copies, fun s a s₁ hrun hm => ?_⟩
  simp only [runs_bind, runs_read] at hrun
  obtain ⟨_, _, ⟨rfl, rfl⟩, hrun⟩ := hrun
  exact hf.takes hrun hm

theorem block (hc : c.Extends c') : Finishes d c c' block block :=
  read (blockOf hc (nestedStatement hc hc.bound))

/-! ### Declarations -/

section Declarations

variable (hc : c.Extends c')

theorem constantDeclaration : Finishes d c c' constantDeclaration constantDeclaration :=
  before .advance fun _ => before .type fun _ => before .identifier fun _ => before .declare fun _ =>
    before .expect fun _ => before .constantValue fun _ => expect

include hc

theorem variableDeclaration : Finishes d c c' variableDeclaration variableDeclaration :=
  before .type fun _ => before (.repeatWhile hc .variableName) fun _ => expect

theorem variableDeclarations : Copies .token c c' variableDeclarations variableDeclarations :=
  .repeatWhile hc (bind .check fun _ => .ite
    (bind (variableDeclaration hc).copying fun _ => .pure) .pure)

theorem classDeclaration : Finishes d c c' classDeclaration classDeclaration := by
  refine before .advance fun _ => before .identifier fun _ => before .withTable fun _ =>
    before (.discard .declare) fun _ => before .expect fun _ => before .updateTable fun _ =>
      before (variableDeclarations hc) fun _ => read (before .table fun _ => ?_)
  rw [hc.options]
  exact before .reportIf fun _ => before .closeScope fun _ => before (.discard .descriptor) fun _ =>
    before .updateTable fun _ => expect

theorem methodBody {id : EntryId} {isEntry : Bool} {t : TypeId} {parameters : Nat} :
    Finishes d c c' (methodBody id isEntry t parameters) (methodBody id isEntry t parameters) := by
  refine before (variableDeclarations hc) fun _ => before .table fun _ => read ?_
  rw [hc.options]
  exact before .reportIf fun _ => before .beginning fun _ => (block hc).andThen fun _ => .ending

theorem methodDeclaration : Finishes d c c' methodDeclaration methodDeclaration := by
  refine before .resultType fun _ => before .identifier fun _ => before .declare fun _ =>
    before .setReturnType fun _ => before .updateTable fun _ => before (.header hc) fun _ => read ?_
  rw [hc.options]
  exact before .reportIf fun _ => before .reportIf fun _ => (methodBody hc).andThen fun _ =>
    bind .closeScope fun _ => bind .updateMethod fun _ => .setReturnType

end Declarations

end Finishes

end MicroJava.Production
