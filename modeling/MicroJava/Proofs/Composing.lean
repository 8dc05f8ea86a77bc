import MicroJava.Proofs.Acting
import MicroJava.Proofs.Course
import MicroJava.Proofs.Wording

/-!
# Properties of productions that are composed

What a production does comes down to a few things: it takes tokens, marks places, reports with as many
details as the wordings have places for, and changes the table or the code. A property that holds of each
of these but the changes of the table, and of what is composed of productions with the property
(`Visits`), holds of every production of expressions and statements, if it holds of the creation of
objects and arrays: only there a type is added to the table (`VisitsBlocks`). What is only about the table
has less to show (`Composes`).
-/

namespace MicroJava

/-! ### The details of reports -/

namespace Operand

theorem takes_loading (x : Operand) : ∀ p ∈ x.loading, p.Takes [] := by
  unfold loading
  split <;> simp [Problem.Takes, Problem.isDetailed]

theorem takes_storing (x : Operand) : ∀ p ∈ x.storing, p.Takes [] := by
  unfold storing
  split <;> simp [Problem.Takes, Problem.isDetailed]

theorem takes_assign (x y : Operand) : ∀ p ∈ y.loading.or x.storing, p.Takes [] := by
  intro p hp
  rcases Option.or_eq_some_iff.1 hp with hp | ⟨-, hp⟩
  · exact y.takes_loading p hp
  · exact x.takes_storing p hp

theorem takes_ofEntry {id : EntryId} {e : Entry} {p : Problem} (h : ofEntry id e = .error p) :
    p.Takes [] := by
  unfold ofEntry at h
  split at h
  · contradiction
  · split at h <;> cases h <;> rfl

end Operand

namespace SymbolTable

variable {t : SymbolTable} {name : String} {p : Problem}

theorem takes_find (h : t.find name = .error p) : p.Takes [name] := by
  unfold find at h
  split at h <;> cases h
  rfl

theorem takes_findField {type : TypeId} (h : t.findField name type = .error p) : p.Takes [name] := by
  unfold findField at h
  split at h <;> cases h
  rfl

end SymbolTable

namespace Production

variable {α β : Type} {c : Setting}

/-- The property holds of what leaves the tokens, the journal and the table alone, of taking a token,
marking a place and reporting with the details that the wording has places for, and of what is composed of
productions with the property. -/
structure Visits (c : Setting) (P : {α : Type} → Production α → Prop) : Prop where
  quiet {α : Type} {m : Production α} :
    (∀ s, s.Beside (m.outcome c s).2 ∧ (m.outcome c s).2.table = s.table) → P m
  advance : P advance
  resume : P resume
  report {p : Problem} {details : List String} : p.Takes details → P (report p details)
  attempt {e : Emission Problem Unit} {p? : Option Problem} :
    e.Ends p? → (∀ p ∈ p?, p.Takes []) → P (attempt e)
  bind {α β : Type} {m : Production α} {f : α → Production β} :
    P m → (∀ a, P (f a)) → P (m >>= f)
  read {α : Type} {f : Setting → Production α} : P (f c) → P (MonadReader.read >>= f)

/-- Besides, the property holds of what follows `new`, if it holds of expressions. -/
structure VisitsBlocks (c : Setting) (P : {α : Type} → Production α → Prop) : Prop
    extends Visits c P where
  creation {E : Production Operand} : P E → P (creation E)

/-- The property holds of productions that leave the table alone, however they end, and of what is
composed of productions with the property. -/
structure Composes (c : Setting) (P : {α : Type} → Production α → Prop) : Prop where
  still {α : Type} {m : Production α} : (∀ s, (m.outcome c s).2.table = s.table) → P m
  bind {α β : Type} {m : Production α} {f : α → Production β} :
    P m → (∀ a, P (f a)) → P (m >>= f)
  read {α : Type} {f : Setting → Production α} : P (f c) → P (MonadReader.read >>= f)

namespace Composes

variable {P : {α : Type} → Production α → Prop} (h : Composes c @P)

include h

theorem pure (a : α) : P (pure a : Production α) := h.still fun _ => rfl

theorem report {p : Problem} {details : List String} : P (report p details) := h.still fun _ => rfl

theorem reportIf {mistake : Prop} [Decidable mistake] {p : Problem} {details : List String} :
    P (reportIf mistake p details) := by
  unfold Production.reportIf
  split
  · exact h.report
  · exact h.pure ()

theorem visits : Visits c @P where
  quiet hm := h.still fun s => (hm s).2
  advance := h.still fun _ => rfl
  resume := h.still fun _ => rfl
  report _ := h.report
  attempt _ _ := by
    refine h.bind (h.still fun _ => rfl) fun r => ?_
    cases r
    · exact h.report
    · exact h.pure _
  bind := h.bind
  read := h.read

end Composes

namespace Visits

variable {P : {α : Type} → Production α → Prop}

theorem ite {p : Prop} [Decidable p] {m m' : Production α} (hm : p → P m) (hm' : ¬p → P m') :
    P (if p then m else m') := by
  split
  · next h => exact hm h
  · next h => exact hm' h

variable (h : Visits c @P)

include h

theorem pure (a : α) : P (pure a : Production α) := h.quiet fun _ => ⟨⟨rfl, rfl, rfl⟩, rfl⟩

theorem discard {m : Production α} (hm : P m) : P (discard m) := by
  rw [show (Functor.discard m : Production Unit) = m >>= fun _ => Pure.pure () from rfl]
  exact h.bind hm fun _ => h.pure _

theorem map {m : Production α} (hm : P m) (f : α → β) : P (f <$> m) := by
  rw [map_eq_pure_bind]
  exact h.bind hm fun _ => h.pure _

theorem mapM {f : α → Production β} (hf : ∀ a, P (f a)) : ∀ as : List α, P (as.mapM f)
  | [] => h.pure _
  | a :: as => by
    rw [List.mapM_cons]
    exact h.bind (hf a) fun _ => h.bind (mapM hf as) fun _ => h.pure _

theorem iterate {body : α → Production (α ⊕ β)} (hbody : ∀ a, P (body a)) :
    ∀ n a, P (iterate body n a)
  | 0, _ => h.quiet fun _ => ⟨⟨rfl, rfl, rfl⟩, rfl⟩
  | n + 1, a => h.bind (hbody a) fun r => by
    cases r with
    | inl a' => exact iterate hbody n a'
    | inr b => exact h.pure b

theorem loop {body : α → Production (α ⊕ β)} (hbody : ∀ a, P (body a)) (a : α) : P (loop body a) :=
  h.read (h.iterate hbody _ a)

/-! ### Tokens, reports and lookups -/

theorem peek : P peek := h.quiet fun _ => ⟨⟨rfl, rfl, rfl⟩, rfl⟩

theorem check {k : Token.Kind} : P (check k) := h.quiet fun _ => ⟨⟨rfl, rfl, rfl⟩, rfl⟩

theorem checkAny {ks : Token.KindSet} : P (checkAny ks) := h.quiet fun _ => ⟨⟨rfl, rfl, rfl⟩, rfl⟩

theorem get : P get := h.quiet fun _ => ⟨⟨rfl, rfl, rfl⟩, rfl⟩

theorem table : P table := h.quiet fun _ => ⟨⟨rfl, rfl, rfl⟩, rfl⟩

theorem throw (f : Fault) : P (throw f : Production α) := h.quiet fun _ => ⟨⟨rfl, rfl, rfl⟩, rfl⟩

theorem reportIf {mistake : Prop} [Decidable mistake] {p : Problem} {details : List String}
    (hp : p.Takes details) : P (reportIf mistake p details) :=
  ite (fun _ => h.report hp) fun _ => h.pure ()

theorem expect {k : Token.Kind} : P (expect k) :=
  h.bind h.check fun _ => ite (fun _ => h.advance) fun _ => h.report rfl

theorem takeIf {k : Token.Kind} : P (takeIf k) :=
  h.bind h.check fun _ => ite (fun _ => h.advance) fun _ => h.pure ()

theorem identifier : P identifier :=
  h.bind h.check fun _ => ite (fun _ => h.bind h.advance fun _ => h.bind h.get fun _ => h.pure _)
    fun _ => h.bind (h.report rfl) fun _ => h.pure _

theorem literal : P literal := h.bind h.advance fun _ => h.bind h.get fun _ => h.pure _

theorem entry {id : EntryId} : P (entry id) := by
  refine h.bind h.table fun t => ?_
  split
  · exact h.pure _
  · exact h.throw _

theorem descriptor {t : TypeId} : P (descriptor t) := by
  refine h.bind h.table fun t => ?_
  split
  · exact h.pure _
  · exact h.throw _

theorem find {name : String} : P (find name) := by
  refine ite (fun _ => h.pure _) fun _ => h.bind h.table fun t => ?_
  split
  · exact h.pure _
  · next hp => exact h.bind (h.report (SymbolTable.takes_find hp)) fun _ => h.pure _

theorem findField {name : String} {t : TypeId} : P (findField name t) := by
  refine h.bind h.table fun t => ?_
  split
  · exact h.pure _
  · next hp => exact h.bind (h.report (SymbolTable.takes_findField hp)) fun _ => h.pure _

theorem fits {x : Operand} {t : TypeId} : P (fits x t) :=
  h.bind (h.discard h.descriptor) fun _ => h.bind (h.discard h.descriptor) fun _ =>
    h.bind h.table fun _ => h.pure _

theorem comparable {t t' : TypeId} : P (comparable t t') :=
  h.bind (h.discard h.descriptor) fun _ => h.bind (h.discard h.descriptor) fun _ =>
    h.bind h.table fun _ => h.pure _

theorem write {e : Emission Fault α} : P (write e) := by
  refine h.bind (h.quiet fun _ => ⟨⟨rfl, rfl, rfl⟩, rfl⟩) fun r => ?_
  cases r
  · exact h.throw _
  · exact h.pure _

theorem emit {op : Opcode} {operands : List Int} : P (emit op operands) := h.write

theorem load {x : Operand} : P (load x) := h.attempt (Emission.ends_load x) x.takes_loading

theorem repeatWhile {body : Production Bool} (hbody : P body) :
    P (repeatWhile body) :=
  h.loop (fun _ => h.bind hbody fun _ => h.pure _) ()

/-! ### Skipping -/

theorem skipUntil {found : Production Bool} (hf : P found) : P (skipUntil found) :=
  h.repeatWhile (h.bind h.advance fun _ => h.bind hf fun _ => h.pure _)

theorem atTypeName : P atTypeName := by
  refine h.bind h.get fun s => ite (fun _ => h.pure _) fun _ => h.bind h.table fun t => ?_
  split
  · exact h.pure _
  · exact h.bind h.entry fun e => h.pure _

theorem recoverDeclaration : P recoverDeclaration := by
  refine h.bind (h.report rfl) fun _ => h.bind (h.skipUntil ?_) fun _ => h.resume
  refine h.bind h.checkAny fun _ => ite (fun _ => h.pure _) fun _ => h.bind h.get fun s => ?_
  exact ite (fun _ => h.pure _) fun _ => h.atTypeName

theorem recoverMethod : P recoverMethod :=
  h.bind (h.report rfl) fun _ => h.bind (h.skipUntil h.checkAny) fun _ => h.resume

theorem recoverStatement : P recoverStatement :=
  h.bind (h.report rfl) fun _ => h.bind (h.skipUntil h.checkAny) fun _ => h.bind h.takeIf fun _ => h.resume

/-! ### Expressions -/

theorem namedOperand : P namedOperand := by
  refine h.bind h.identifier fun _ => h.bind h.find fun _ => h.bind h.entry fun _ => ?_
  split
  · exact h.pure _
  · next hp => exact h.bind (h.report (Operand.takes_ofEntry hp)) fun _ => h.pure _

theorem fieldOf {x : Operand} : P (fieldOf x) := by
  refine h.bind h.descriptor fun d => ite (fun _ => ?_) fun _ => ?_
  · refine h.bind h.load fun _ => h.bind h.identifier fun _ => h.bind h.findField fun _ => ?_
    exact ite (fun _ => h.pure _) fun _ => h.bind h.entry fun _ => h.pure _
  · exact h.bind (h.report rfl) fun _ => h.bind (h.discard h.identifier) fun _ => h.pure _

theorem checkArgument {x : Operand} : ∀ t : Option TypeId, P (checkArgument x t)
  | some _ => h.bind h.fits fun _ => h.reportIf rfl
  | none => h.pure ()

theorem afterMember {count : Nat} : P (afterMember count) :=
  h.bind h.check fun _ => ite (fun _ => h.bind h.advance fun _ => h.pure _) fun _ => h.pure _

theorem checkCount {wanted : Option Nat} {count : Nat} {tooFew tooMany : Problem}
    (hfew : tooFew.Takes []) (hmany : tooMany.Takes []) :
    P (checkCount wanted count tooFew tooMany) := by
  cases wanted with
  | none => exact h.pure ()
  | some n =>
    exact ite (fun _ => h.report hfew) fun _ => ite (fun _ => h.report hmany) fun _ => h.pure ()

theorem announcement : P announcement :=
  h.bind h.check fun _ => ite (fun _ => h.bind h.literal fun _ => h.pure _) fun _ =>
    h.bind h.expect fun _ => h.pure _

theorem members {member : Nat → Production (Nat ⊕ Nat)} (hm : ∀ n, P (member n)) :
    P (members member) :=
  h.bind h.checkAny fun _ => ite (fun _ => h.loop hm 0) fun _ => h.pure 0

theorem newArrayOf {length : Int32} (t : Option TypeId) : P (newArrayOf length t) := by
  cases t
  · exact h.pure ()
  · exact h.write

theorem callee {x : Operand} : P (callee x) := by
  unfold Production.callee
  split
  · exact h.bind h.entry fun _ => h.pure _
  · exact h.pure _

theorem targetSignature : ∀ target : Option (EntryId × Method), P (targetSignature target)
  | none => h.pure _
  | some (_, m) => by
    refine h.bind (h.mapM (fun _ => h.bind h.entry fun _ => h.pure _) _) fun ts => h.bind ?_ fun _ =>
      h.pure _
    unfold extraType
    split
    · exact h.map (h.map h.descriptor _) _
    · exact h.pure _

theorem result {t : TypeId} : ∀ target : Option (EntryId × Method), P (result t target)
  | none => h.pure _
  | some (id, m) => by
    refine h.bind ?_ fun _ => h.pure _
    unfold invoke
    split
    · exact h.emit
    · exact h.pure _
    · exact h.pure _
    · exact h.write

section Expressions

variable {E : Production Operand} (hE : P E)

include hE

theorem loadInteger {mistake : Problem} (hmistake : mistake.Takes []) :
    P (loadInteger E mistake) :=
  h.bind hE fun _ => h.bind (h.reportIf hmistake) fun _ => h.load

theorem designatorStep {x : Operand} : P (designatorStep E x) := by
  refine h.bind h.peek fun k => ?_
  split
  · exact h.bind h.advance fun _ => h.bind h.fieldOf fun _ => h.pure _
  · refine h.bind h.advance fun _ => h.bind (h.bind h.descriptor fun _ => ?_) fun _ => h.pure _
    exact h.bind (ite (fun _ => h.load) fun _ => h.report rfl) fun _ => h.bind (h.loadInteger hE rfl) fun _ =>
      h.bind h.expect fun _ => h.pure _
  · exact h.pure _

theorem designator : P (designator E) :=
  h.bind h.namedOperand fun x => h.loop (fun _ => h.designatorStep hE) x

theorem packArgument {count : Nat} : ∀ t : Option TypeId, P (packArgument E count t)
  | none => h.discard hE
  | some _ => h.bind h.emit fun _ => h.bind h.write fun _ => h.bind hE fun _ =>
    h.bind (h.checkArgument _) fun _ =>
    h.bind h.load fun _ => h.write

theorem variablePart {isMethod : Bool} {t : Option TypeId} :
    P (variablePart E isMethod t) := by
  refine h.bind h.check fun _ => ite (fun _ => h.bind (h.reportIf rfl) fun _ => ?_) fun _ => h.newArrayOf t
  exact h.bind h.advance fun _ => h.bind h.announcement fun _ => h.bind (h.newArrayOf t) fun _ =>
    h.bind (h.members fun _ => h.bind (h.packArgument hE t) fun _ => h.afterMember) fun _ =>
      h.checkCount rfl rfl

theorem call {x : Operand} : P (call E x) :=
  h.bind h.callee fun _ => h.bind (h.reportIf rfl) fun _ => h.bind h.expect fun _ =>
    h.bind (h.targetSignature _) fun _ =>
    h.bind (h.members fun _ => h.bind hE fun _ => h.bind (h.checkArgument _) fun _ =>
      h.bind h.load fun _ =>
      h.afterMember) fun _ =>
    h.bind (h.checkCount rfl rfl) fun _ => h.bind (h.variablePart hE) fun _ => h.bind h.expect fun _ =>
      h.result _

end Expressions

/-! ### Types and variables -/

theorem namedType : P namedType :=
  h.bind h.identifier fun _ => h.bind h.find fun _ => h.bind h.entry fun _ => ite (fun _ => h.pure _)
    fun _ => h.bind (h.reportIf rfl) fun _ => h.pure _

section Types

variable (ha : ∀ t, P (arrayOf t))

include ha

theorem type : P type :=
  h.bind h.namedType fun t => h.bind h.check fun _ => ite (fun _ => h.bind h.advance fun _ =>
    h.bind h.expect fun _ => ha t) fun _ => h.pure _

theorem resultType : P resultType :=
  h.bind h.check fun _ => ite (fun _ => h.bind h.advance fun _ => h.pure _) fun _ => h.type ha

/-- Where array types may be added anywhere, objects and arrays may be created. -/
theorem visitsBlocks : VisitsBlocks c @P where
  toVisits := h
  creation hE := by
    refine h.bind h.namedType fun t => h.bind h.check fun _ => ite (fun _ => ?_) fun _ => ?_
    · exact h.bind h.advance fun _ => h.bind (h.loadInteger hE rfl) fun _ => h.bind h.expect fun _ =>
        h.bind h.write fun _ => h.bind (ha t) fun _ => h.pure _
    · exact h.bind h.descriptor fun d => ite (fun _ => h.bind h.write fun _ => h.pure _) fun _ =>
        h.bind (h.reportIf rfl) fun _ => h.pure _

variable (hd : ∀ name t, P (declare .var name t))

include hd

theorem variableDeclaration : P variableDeclaration := by
  have hname : ∀ t, P (variableName t) := fun t => h.bind h.identifier fun name =>
    h.bind (hd name t) fun _ => h.bind (h.bind h.table fun _ => ite (fun _ => h.write) fun _ =>
      h.pure _) fun _ => h.bind h.check fun _ => ite (fun _ => h.bind h.advance fun _ => h.pure _)
        fun _ => h.pure _
  exact h.bind (h.type ha) fun t => h.bind (h.repeatWhile (hname t)) fun _ => h.expect

theorem variableDeclarations : P variableDeclarations :=
  h.repeatWhile <| h.bind h.check fun _ => ite (fun _ =>
    h.bind (h.variableDeclaration ha hd) fun _ => h.pure _) fun _ => h.pure _

end Types

end Visits

namespace VisitsBlocks

variable {P : {α : Type} → Production α → Prop} (h : VisitsBlocks c @P)

include h

section Expressions

variable {E : Production Operand} (hE : P E)

include hE

theorem factor : P (factor E) := by
  refine h.bind h.peek fun k => ?_
  split
  · exact h.bind (h.designator hE) fun _ => h.bind h.check fun _ =>
      Visits.ite (fun _ => h.bind (h.reportIf rfl) fun _ => h.call hE) fun _ => h.pure _
  · exact h.bind h.literal fun _ => h.pure _
  · exact h.bind h.literal fun _ => h.pure _
  · exact h.bind h.advance fun _ => h.creation hE
  · exact h.bind h.advance fun _ => h.bind hE fun _ => h.bind h.expect fun _ => h.pure _
  · exact h.bind (h.report rfl) fun _ => h.pure _

omit hE in
theorem operation {operator? : Token.Kind → Option Opcode} {operand : Production Operand}
    {x : Operand} (hy : P operand) : P (operation operator? operand x) := by
  refine h.bind h.peek fun k => ?_
  split
  · exact h.pure _
  · exact h.bind h.advance fun _ => h.bind h.load fun _ => h.bind hy fun _ => h.bind h.load fun _ =>
      h.bind (h.reportIf rfl) fun _ => h.bind h.emit fun _ => h.pure _

theorem term : P (term E) :=
  h.bind (h.factor hE) fun x => h.loop (fun _ => h.operation (h.factor hE)) x

theorem firstTerm : P (firstTerm E) := by
  refine h.bind h.check fun _ => Visits.ite (fun _ => ?_) fun _ => h.term hE
  refine h.bind h.advance fun _ => h.bind (h.term hE) fun x => Visits.ite (fun _ =>
    h.bind (h.report rfl) fun _ => h.pure _)
    fun _ => ?_
  split
  · exact h.pure _
  · exact h.bind h.load fun _ => h.bind h.emit fun _ => h.pure _

theorem sum : P (sum E) :=
  h.bind (h.firstTerm hE) fun x => h.loop (fun _ => h.operation (h.term hE)) x

end Expressions

theorem nestedExpression : ∀ depth, P (nestedExpression depth)
  | 0 => h.throw _
  | depth + 1 => h.sum (nestedExpression depth)

theorem expression : P expression := h.read (h.nestedExpression _)

/-! ### Conditions -/

theorem comparison : P comparison := by
  refine h.bind h.peek fun k => ?_
  split
  · exact h.bind h.advance fun _ => h.pure _
  · exact h.bind (h.report rfl) fun _ => h.pure _

theorem test {l l' : Label} : P (test l l') :=
  h.bind h.expression fun _ => h.bind h.load fun _ => h.bind h.comparison fun _ =>
    h.bind h.expression fun _ =>
    h.bind h.load fun _ => h.bind (h.bind h.comparable fun _ => Visits.ite (fun _ =>
      h.bind h.descriptor fun _ =>
      h.reportIf rfl) fun _ => h.report rfl) fun _ => h.pure _

theorem conjunction {l : Label} : P (conjunction l) :=
  h.bind h.write fun _ => h.bind h.test fun b => h.loop (fun _ => h.bind h.check fun _ =>
    Visits.ite (fun _ =>
    h.bind h.advance fun _ => h.bind h.write fun _ => h.bind h.test fun _ => h.pure _) fun _ =>
      h.pure _) b

theorem condition : P condition :=
  h.bind h.write fun _ => h.bind h.conjunction fun b => h.loop (fun _ => h.bind h.check fun _ =>
    Visits.ite (fun _ =>
    h.bind h.advance fun _ => h.bind h.write fun _ => h.bind h.write fun _ =>
      h.bind h.conjunction fun _ => h.pure _)
      fun _ => h.pure _) b

/-! ### Statements -/

theorem assignment {x : Operand} {operator : Option Opcode} : P (assignment x operator) :=
  h.bind (Visits.ite (fun _ => h.pure ()) fun _ => Visits.ite (fun _ =>
    h.attempt (Emission.ends_loadForUpdate x) x.takes_storing) fun _ => h.report rfl) fun _ =>
    h.bind h.expression fun y => h.bind (h.reportIf rfl) fun _ => h.bind h.fits fun _ =>
      Visits.ite (fun _ => h.attempt (Emission.ends_assign x y operator) (x.takes_assign y)) fun _ =>
        h.report rfl

theorem increment {x : Operand} {step : Int32} : P (increment x step) := by
  refine Visits.ite (fun _ => h.report rfl) fun _ => ?_
  split
  · exact h.write
  · next hplace => exact h.attempt (Emission.ends_incrementPlace x step hplace) x.takes_storing

theorem designatorStatement : P designatorStatement := by
  refine h.bind (h.designator h.expression) fun x => h.bind (h.bind h.peek fun k => ?_) fun _ =>
    h.expect
  split
  · exact h.bind h.advance fun _ => h.assignment
  · split
    · exact h.bind (h.call h.expression) fun _ => Visits.ite (fun _ => h.emit) fun _ => h.pure ()
    · exact h.bind h.advance fun _ => h.increment
    · exact h.bind h.advance fun _ => h.increment
    · exact h.report rfl

theorem guardCondition : P guardCondition :=
  h.bind h.expect fun _ => h.bind h.condition fun _ => h.bind h.expect fun _ => h.bind h.write fun _ =>
    h.bind h.write fun _ => h.pure _

theorem breakStatement {exit : Option Label} : P (breakStatement exit) := by
  refine h.bind h.advance fun _ => h.bind ?_ fun _ => h.expect
  cases exit
  · exact h.report rfl
  · exact h.write

theorem returnStatement : P returnStatement := by
  refine h.bind h.advance fun _ => h.bind h.get fun s => h.bind ?_ fun _ => h.bind h.emit fun _ =>
    h.bind h.emit fun _ =>
    h.expect
  refine h.bind h.checkAny fun _ => Visits.ite (fun _ => h.bind h.expression fun _ => ?_) fun _ =>
    h.reportIf rfl
  exact Visits.ite (fun _ => h.report rfl) fun _ => h.bind h.fits fun _ => h.bind h.load fun _ =>
    h.reportIf rfl

theorem readStatement : P readStatement := by
  refine h.bind h.advance fun _ => h.bind h.expect fun _ => h.bind (h.designator h.expression) fun x =>
    h.bind ?_ fun _ => h.bind h.expect fun _ => h.expect
  unfold readInto
  split
  · exact h.bind h.emit fun _ => h.attempt (Emission.ends_store x) x.takes_storing
  · exact h.report rfl

theorem printWidth : P printWidth :=
  h.read (h.bind h.check fun _ => Visits.ite (fun _ => h.bind h.advance fun _ =>
    h.bind h.check fun _ =>
    Visits.ite (fun _ => h.literal) fun _ => h.bind h.expect fun _ => h.pure _) fun _ => h.pure _)

theorem printStatement : P printStatement := by
  refine h.bind h.advance fun _ => h.bind h.expect fun _ => h.bind h.expression fun x =>
    h.bind (h.reportIf rfl) fun _ =>
    h.bind h.load fun _ => h.bind h.printWidth fun _ => h.bind h.write fun _ => h.bind ?_ fun _ =>
      h.bind h.expect fun _ => h.expect
  unfold emitPrint
  split
  · exact h.emit
  · exact h.pure ()

section Statements

variable {statement : Option Label → Production Unit} (hst : ∀ exit, P (statement exit))

include hst

theorem blockOf {exit : Option Label} : P (blockOf statement exit) := by
  refine h.bind h.expect fun _ => h.bind (h.repeatWhile (h.bind h.peek fun k => ?_)) fun _ => h.expect
  split
  · exact h.pure _
  · exact h.pure _
  · exact h.bind (hst exit) fun _ => h.pure _

theorem ifStatement {exit : Option Label} : P (ifStatement statement exit) :=
  h.bind h.advance fun _ => h.bind h.guardCondition fun _ => h.bind (hst exit) fun _ =>
    h.bind h.check fun _ =>
    Visits.ite (fun _ => h.bind h.advance fun _ => h.bind h.write fun _ => h.bind h.write fun _ =>
      h.bind h.write fun _ =>
      h.bind (hst exit) fun _ => h.write) fun _ => h.write

theorem whileStatement : P (whileStatement statement) :=
  h.bind h.advance fun _ => h.bind h.write fun _ => h.bind h.write fun _ =>
    h.bind h.guardCondition fun _ =>
    h.bind h.write fun _ => h.bind (hst _) fun _ => h.bind h.write fun _ => h.bind h.write fun _ =>
      h.write

theorem statementOf {exit : Option Label} : P (statementOf statement exit) := by
  refine h.bind h.peek fun k => ?_
  split
  · exact h.designatorStatement
  · exact h.ifStatement hst
  · exact h.whileStatement hst
  · exact h.breakStatement
  · exact h.returnStatement
  · exact h.readStatement
  · exact h.printStatement
  · exact h.blockOf hst
  · exact h.advance
  · exact h.recoverStatement

end Statements

theorem nestedStatement : ∀ depth exit, P (nestedStatement depth exit)
  | 0, _ => h.throw _
  | depth + 1, _ => h.statementOf (nestedStatement depth)

theorem block : P block := h.read (h.blockOf (h.nestedStatement _))

end VisitsBlocks

end Production

end MicroJava
