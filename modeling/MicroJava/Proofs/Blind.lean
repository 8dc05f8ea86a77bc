import MicroJava.Production.Program
import MicroJava.Proofs.Renaming
import MicroJava.Proofs.Run

/-!
# Productions do not look at names

Two sessions that differ by a renaming, and in positions and the details of reports, are alike
(`Session.Alike`). Productions that start in sessions that are alike give results that correspond and
end in sessions that are alike (`Production.Mirrors`): the productions give the same results
(`Production.Blind`), and the names that they take correspond.
-/

namespace MicroJava

/-! ### Tokens and sessions -/

/-- The tokens differ in their places, and by a renaming. -/
structure Token.Alike {entryName : String} (R : Renaming entryName) (t t' : Token) : Prop where
  kind : t'.kind = t.kind
  literal : t'.literal = t.literal
  name : t.kind = .identifier → R.rel t.name t'.name

structure Token.Scanned.Alike {entryName : String} (R : Renaming entryName) (t t' : Token.Scanned) :
    Prop where
  token : t.token.Alike R t'.token
  problems : t'.diagnostics.map (·.problem) = t.diagnostics.map (·.problem)

namespace Session

/-- The problems that were reported and kept. -/
def problems (s : Session) : List Problem := s.journal.log.toList.map (·.problem)

theorem problems_eq {s s' t t' : Session} (h : s'.problems = s.problems) (e e' : Event)
    (ht : t.journal.events = e :: s.journal.events)
    (ht' : t'.journal.events = e' :: s'.journal.events)
    (he : e'.diagnostics.map (·.problem) = e.diagnostics.map (·.problem)) :
    t'.problems = t.problems := by
  simp only [problems, Journal.log, Log.toList_extend, List.map_append] at h ⊢
  simp [ht, ht', he, List.append_cancel_left h]

/-- The sessions differ in places, in the details of reports, and by a renaming. -/
structure Alike {entryName : String} (R : Renaming entryName) (s s' : Session) : Prop where
  ahead : List.Forall₂ (Token.Scanned.Alike R) s.stream.ahead s'.stream.ahead
  last : s.stream.last.Alike R s'.stream.last
  current : s.current.Alike R s'.current
  previous : s.previous.Alike R s'.previous
  distance : s'.journal.distance = s.journal.distance
  problems : s'.problems = s.problems
  table : s.table.Alike R s'.table
  assembly : s'.assembly = s.assembly
  returnType : s'.returnType = s.returnType

variable {entryName : String} {R : Renaming entryName} {s s' : Session}

theorem Alike.advance (h : s.Alike R s') : s.advance.Alike R s'.advance := by
  obtain ⟨⟨ts, last⟩, current, previous, journal, table, assembly, returnType⟩ := s
  obtain ⟨⟨ts', last'⟩, current', previous', journal', table', assembly', returnType'⟩ := s'
  obtain ⟨hahead, hlast, hcurrent, hprevious, hdistance, hproblems, htable, hassembly, htype⟩ := h
  have hdistance' : journal'.distance + 1 = journal.distance + 1 := congrArg (· + 1) hdistance
  cases hahead with
  | nil =>
    exact ⟨.nil, hlast, hlast, hcurrent, hdistance',
      problems_eq hproblems (.took ⟨last, []⟩) (.took ⟨last', []⟩) rfl rfl rfl, htable, hassembly, htype⟩
  | @cons t t' ts ts' ht hrest =>
    exact ⟨hrest, hlast, ht.token, hcurrent, hdistance',
      problems_eq hproblems (.took t) (.took t') rfl rfl ht.problems, htable, hassembly, htype⟩

theorem Alike.report (h : s.Alike R s') (least : UInt32) (p : Problem)
    (details details' : List String) :
    (s.report least p details).Alike R (s'.report least p details') where
  ahead := h.ahead
  last := h.last
  current := h.current
  previous := h.previous
  distance := rfl
  problems := by
    refine problems_eq h.problems (.reported ⟨s.current.position, p, details⟩
      (least ≤ s.journal.distance)) (.reported ⟨s'.current.position, p, details'⟩
        (least ≤ s'.journal.distance)) rfl rfl ?_
    rw [h.distance, Event.diagnostics, Event.diagnostics]
    split <;> rfl
  table := h.table
  assembly := h.assembly
  returnType := h.returnType

theorem Alike.resume (h : s.Alike R s') : s.resume.Alike R s'.resume where
  ahead := h.ahead
  last := h.last
  current := h.current
  previous := h.previous
  distance := rfl
  problems := problems_eq h.problems .resumed .resumed rfl rfl rfl
  table := h.table
  assembly := h.assembly
  returnType := h.returnType

end Session

namespace Production

variable {α α' β β' : Type} {c : Setting} {R : Renaming c.options.entryName}

/-- The results correspond, or the faults are the same. -/
def Matches (Q : α → α' → Prop) : Except Fault α → Except Fault α' → Prop
  | .ok a, .ok a' => Q a a'
  | .error f, .error f' => f = f'
  | _, _ => False

/-- From sessions that are alike, the productions come to results that correspond, and to sessions that
are alike. -/
def Mirrors (R : Renaming c.options.entryName) (Q : α → α' → Prop) (m : Production α)
    (m' : Production α') : Prop :=
  ∀ ⦃s s' : Session⦄, s.Alike R s' → Matches Q (m.outcome c s).1 (m'.outcome c s').1 ∧
    (m.outcome c s).2.Alike R (m'.outcome c s').2

/-- From sessions that are alike, the production comes to the same result. -/
abbrev Blind (R : Renaming c.options.entryName) (m : Production α) : Prop := Mirrors R Eq m m

/-! ### Steps -/

namespace Mirrors

variable {Q : α → α' → Prop} {P : β → β' → Prop} {m : Production α} {m' : Production α'}

theorem pure {a : α} {a' : α'} (h : Q a a') : Mirrors R Q (pure a) (pure a') := fun _ _ hs => ⟨h, hs⟩

theorem throw (f : Fault) : Mirrors R Q (throw f) (throw f) := fun _ _ hs => ⟨rfl, hs⟩

theorem bind {f : α → Production β} {f' : α' → Production β'} (hm : Mirrors R Q m m')
    (hf : ∀ a a', Q a a' → Mirrors R P (f a) (f' a')) : Mirrors R P (m >>= f) (m' >>= f') := by
  intro s s' hs
  have h := hm hs
  rw [outcome_bind, outcome_bind]
  rcases hr : outcome m c s with ⟨r | a, s₁⟩ <;> rcases hr' : outcome m' c s' with ⟨r' | a', s₁'⟩ <;>
    rw [hr, hr'] at h
  · exact h
  · exact False.elim h.1
  · exact False.elim h.1
  · exact hf a a' h.1 h.2

theorem get : Mirrors R (Session.Alike R) get get := fun _ _ hs => ⟨hs, hs⟩

theorem modify {f f' : Session → Session} (h : ∀ s s', s.Alike R s' → (f s).Alike R (f' s')) :
    Mirrors R Eq (modify f) (modify f') := fun s s' hs => ⟨rfl, h s s' hs⟩

theorem table : Mirrors R (SymbolTable.Alike R) table table := fun _ _ hs => ⟨hs.table, hs⟩

/-- The details of a report may differ. -/
theorem report (p : Problem) (details details' : List String) :
    Mirrors R Eq (report p details) (report p details') :=
  fun _ _ hs => ⟨rfl, hs.report _ p details details'⟩

/-- The name that is taken is the one that corresponds. -/
theorem identifier : Mirrors R R.rel identifier identifier := by
  intro s s' hs
  have hcheck : ∀ s : Session, (check .identifier).outcome c s =
      (.ok (s.current.kind = .identifier), s) := fun _ => rfl
  rw [Production.identifier, outcome_bind, outcome_bind, hcheck, hcheck, hs.current.kind]
  by_cases hk : s.current.kind = .identifier
  · simp only [decide_eq_true hk]
    exact ⟨hs.current.name hk, hs.advance⟩
  · simp only [decide_eq_false hk]
    exact ⟨R.empty, hs.report _ _ _ _⟩

/-- The entries that are found differ in their names. -/
theorem entry (id : EntryId) :
    Mirrors R (fun e e' => ∃ n, e' = { e with name := n }) (entry id) (entry id) := by
  refine bind table fun t t' ht => ?_
  rcases he : t.entryAt? id with _ | e
  · rw [ht.entryAt?_none he]
    exact throw _
  · obtain ⟨n, he', -⟩ := ht.entry id e he
    rw [he']
    exact pure ⟨n, rfl⟩

/-- What changes the table only. -/
theorem withTable {f : SymbolTable → α × SymbolTable} {f' : SymbolTable → α' × SymbolTable}
    (h : ∀ t t', t.Alike R t' → Q (f t).1 (f' t').1 ∧ (f t).2.Alike R (f' t').2) :
    Mirrors R Q (modifyGet (·.withTable f)) (modifyGet (·.withTable f')) := by
  intro s s' hs
  obtain ⟨hq, ht⟩ := h _ _ hs.table
  exact ⟨hq, hs.ahead, hs.last, hs.current, hs.previous, hs.distance, hs.problems, ht, hs.assembly,
    hs.returnType⟩

/-- A step with the same result, in front of others. -/
theorem seq {m m' : Production α} {f : α → Production β} {f' : α → Production β'}
    (hm : Mirrors R Eq m m') (hf : ∀ a, Mirrors R P (f a) (f' a)) :
    Mirrors R P (m >>= f) (m' >>= f') :=
  bind hm fun a _ h => h ▸ hf a

theorem ite {b : Prop} [Decidable b] {n : Production α} {n' : Production α'}
    (hm : Mirrors R Q m m') (hn : Mirrors R Q n n') :
    Mirrors R Q (if b then m else n) (if b then m' else n') := by
  split
  · exact hm
  · exact hn

theorem read {f : Setting → Production α} {f' : Setting → Production α'}
    (hf : Mirrors R Q (f c) (f' c)) :
    Mirrors R Q (MonadReader.read >>= f) (MonadReader.read >>= f') := by
  intro s s' hs
  rw [outcome_bind, outcome_bind, outcome_read, outcome_read]
  exact hf hs

theorem findField {n n' : String} (hn : R.rel n n') (type : TypeId) :
    Mirrors R Eq (findField n type) (findField n' type) := by
  refine bind table fun t t' ht => ?_
  rw [ht.findField hn]
  rcases t'.findField n' type with p | id
  · exact seq (report p _ _) fun _ => pure rfl
  · exact pure rfl

theorem eq_empty_iff {n n' : String} (hn : R.rel n n') : n = "" ↔ n' = "" := R.oneToOne hn R.empty

theorem find {n n' : String} (hn : R.rel n n') : Mirrors R Eq (find n) (find n') := by
  unfold Production.find
  simp only [eq_empty_iff hn]
  refine ite (pure rfl) (bind table fun t t' ht => ?_)
  rw [ht.find hn]
  rcases t'.find n' with p | id
  · exact seq (report p _ _) fun _ => pure rfl
  · exact pure rfl

theorem declare {n n' : String} (hn : R.rel n n') (category : Category) (type : TypeId) :
    Mirrors R Eq (declare category n type) (declare category n' type) := by
  unfold Production.declare
  simp only [eq_empty_iff hn]
  refine ite (pure rfl) (seq (withTable fun t t' ht => ht.declare hn category type) fun r => ?_)
  rcases r with p | id
  · exact seq (report p _ _) fun _ => pure rfl
  · exact pure rfl

end Mirrors

namespace Blind

open Mirrors

variable {m : Production α}

theorem advance : Blind R advance := fun _ _ hs => ⟨rfl, hs.advance⟩

theorem resume : Blind R resume := fun _ _ hs => ⟨rfl, hs.resume⟩

theorem report {p : Problem} {details : List String} : Blind R (report p details) :=
  Mirrors.report p details details

theorem reportIf {mistake : Prop} [Decidable mistake] {p : Problem} {details : List String} :
    Blind R (reportIf mistake p details) := ite report (pure rfl)

theorem peek : Blind R peek := fun _ _ hs => ⟨hs.current.kind.symm, hs⟩

theorem check {k : Token.Kind} : Blind R (check k) := seq peek fun _ => pure rfl

theorem checkAny {ks : Token.KindSet} : Blind R (checkAny ks) := seq peek fun _ => pure rfl

theorem literal : Blind R literal :=
  seq advance fun _ => bind get fun _ _ hs => pure hs.previous.literal.symm

theorem expect {k : Token.Kind} : Blind R (expect k) := seq check fun _ => ite advance report

theorem takeIf {k : Token.Kind} : Blind R (takeIf k) := seq check fun _ => ite advance (pure rfl)

theorem discard {n n' : Production α} {Q : α → α → Prop} (h : Mirrors R Q n n') :
    Mirrors R Eq (discard n) (discard n') := by
  have hdiscard : ∀ n : Production α, (Functor.discard n : Production Unit) =
      n >>= fun _ => Pure.pure () := fun _ => rfl
  rw [hdiscard, hdiscard]
  exact bind h fun _ _ _ => pure rfl

theorem map (h : Blind R m) (f : α → β) : Blind R (f <$> m) := by
  rw [map_eq_pure_bind]
  exact seq h fun _ => pure rfl

theorem mapM {f : α → Production β} (hf : ∀ a, Blind R (f a)) : ∀ as : List α, Blind R (as.mapM f)
  | [] => pure rfl
  | a :: as => by
    rw [List.mapM_cons]
    exact seq (hf a) fun _ => seq (mapM hf as) fun _ => pure rfl

theorem iterate {body : α → Production (α ⊕ β)} (hbody : ∀ a, Blind R (body a)) :
    ∀ n a, Blind R (iterate body n a)
  | 0, _ => throw _
  | n + 1, a => seq (hbody a) fun
    | .inl a' => iterate hbody n a'
    | .inr _ => pure rfl

theorem loop {body : α → Production (α ⊕ β)} (hbody : ∀ a, Blind R (body a)) (a : α) :
    Blind R (loop body a) := read (iterate hbody _ a)

theorem repeatWhile {body : Production Bool} (hbody : Blind R body) : Blind R (repeatWhile body) :=
  loop (fun _ => seq hbody fun _ => pure rfl) ()

/-- What only writes code. -/
theorem withAssembly {f : Assembly → α × Assembly} : Blind R (modifyGet (·.withAssembly f)) := by
  intro s s' hs
  have hassembly := hs.assembly
  obtain ⟨stream', current', previous', journal', table', assembly', returnType'⟩ := s'
  simp only at hassembly
  subst hassembly
  exact ⟨rfl, hs.ahead, hs.last, hs.current, hs.previous, hs.distance, hs.problems, hs.table, rfl,
    hs.returnType⟩

theorem write {e : Emission Fault α} : Blind R (write e) := by
  refine seq withAssembly fun r => ?_
  rcases r with f | a
  · exact throw _
  · exact pure rfl

theorem attempt {e : Emission Problem Unit} : Blind R (attempt e) := by
  refine seq withAssembly fun r => ?_
  rcases r with p | u
  · exact report
  · exact pure rfl

theorem emit {op : Opcode} {operands : List Int} : Blind R (emit op operands) := write

theorem load {x : Operand} : Blind R (load x) := attempt

theorem updateTable {f : SymbolTable → SymbolTable} (hf : ∀ t t', t.Alike R t' → (f t).Alike R (f t')) :
    Blind R (updateTable f) := withTable fun t t' ht => ⟨rfl, hf t t' ht⟩

theorem updateEntry {id : EntryId} {f : Entry → Entry} (hf : SymbolTable.Nameless f) :
    Blind R (updateEntry id f) := updateTable fun _ _ ht => ht.update id hf

theorem arrayOf {t : TypeId} : Blind R (arrayOf t) := withTable fun _ _ ht => ht.arrayOf t

theorem newClass : Blind R (modifyGet (·.withTable (·.newClass)) : Production TypeId) :=
  withTable fun _ _ ht => ht.newClass

theorem openScope : Blind R openScope := updateTable fun _ _ ht => ht.openScope

theorem descriptor {t : TypeId} : Blind R (descriptor t) := by
  refine bind Mirrors.table fun ts ts' hts => ?_
  rw [hts.types]
  split
  · exact pure rfl
  · exact throw _

theorem fits {x : Operand} {t : TypeId} : Blind R (fits x t) := by
  refine seq (discard descriptor) fun _ => seq (discard descriptor) fun _ =>
    bind Mirrors.table fun ts ts' hts => pure ?_
  rw [hts.types]

theorem comparable {t t' : TypeId} : Blind R (comparable t t') := by
  refine seq (discard descriptor) fun _ => seq (discard descriptor) fun _ =>
    bind Mirrors.table fun ts ts' hts => pure ?_
  rw [hts.types]

/-! ### Types and expressions -/

theorem namedType : Blind R namedType :=
  bind Mirrors.identifier fun _ _ hn => seq (Mirrors.find hn) fun _ => bind (Mirrors.entry _) fun _ _ he => by
    obtain ⟨n, rfl⟩ := he
    exact ite (pure rfl) (seq reportIf fun _ => pure rfl)

theorem type : Blind R type :=
  seq namedType fun _ => seq check fun _ =>
    ite (seq advance fun _ => seq expect fun _ => arrayOf) (pure rfl)

theorem namedOperand : Blind R namedOperand := by
  refine bind Mirrors.identifier fun _ _ hn => seq (Mirrors.find hn) fun id => bind (Mirrors.entry _) fun e _ he => ?_
  obtain ⟨n, rfl⟩ := he
  have hoperand : Operand.ofEntry id { e with name := n } = Operand.ofEntry id e := rfl
  rw [hoperand]
  split
  · exact pure rfl
  · exact seq report fun _ => pure rfl

theorem fieldOf {x : Operand} : Blind R (fieldOf x) := by
  refine seq descriptor fun d => ite ?_ ?_
  · refine seq load fun _ => bind Mirrors.identifier fun _ _ hn => seq (Mirrors.findField hn _) fun id =>
      ite (pure rfl) (bind (Mirrors.entry _) fun _ _ he => ?_)
    obtain ⟨n, rfl⟩ := he
    exact pure rfl
  · exact seq report fun _ => seq (discard Mirrors.identifier) fun _ => pure rfl

theorem checkArgument {x : Operand} : ∀ t : Option TypeId, Blind R (checkArgument x t)
  | some _ => seq fits fun _ => reportIf
  | none => pure rfl

theorem afterMember {count : Nat} : Blind R (afterMember count) :=
  seq check fun _ => ite (seq advance fun _ => pure rfl) (pure rfl)

theorem checkCount {wanted : Option Nat} {count : Nat} {tooFew tooMany : Problem} :
    Blind R (checkCount wanted count tooFew tooMany) := by
  cases wanted with
  | none => exact pure rfl
  | some n => exact ite report (ite report (pure rfl))

theorem announcement : Blind R announcement :=
  seq check fun _ => ite (seq literal fun _ => pure rfl) (seq expect fun _ => pure rfl)

theorem members {member : Nat → Production (Nat ⊕ Nat)} (hm : ∀ n, Blind R (member n)) :
    Blind R (members member) := seq checkAny fun _ => ite (loop hm 0) (pure rfl)

theorem newArrayOf {length : Int32} (t : Option TypeId) : Blind R (newArrayOf length t) := by
  cases t
  · exact pure rfl
  · exact write

theorem callee {x : Operand} : Blind R (callee x) := by
  unfold Production.callee
  split
  · refine bind (Mirrors.entry _) fun _ _ he => ?_
    obtain ⟨n, rfl⟩ := he
    exact pure rfl
  · exact pure rfl

theorem targetSignature : ∀ target : Option (EntryId × Method), Blind R (targetSignature target)
  | none => pure rfl
  | some (_, m) => by
    refine seq (mapM (fun _ => bind (Mirrors.entry _) fun _ _ he => ?_) _) fun ts => seq ?_ fun _ => pure rfl
    · obtain ⟨n, rfl⟩ := he
      exact pure rfl
    · unfold extraType
      split
      · exact map (map descriptor _) _
      · exact pure rfl

theorem result {t : TypeId} : ∀ target : Option (EntryId × Method), Blind R (result t target)
  | none => pure rfl
  | some (id, m) => by
    refine seq ?_ fun _ => pure rfl
    unfold invoke
    split
    · exact emit
    · exact pure rfl
    · exact pure rfl
    · exact write

section Expressions

variable {E : Production Operand} (hE : Blind R E)

include hE

theorem loadInteger {mistake : Problem} : Blind R (loadInteger E mistake) :=
  seq hE fun _ => seq reportIf fun _ => load

theorem elementOf {x : Operand} : Blind R (elementOf E x) :=
  seq descriptor fun _ => seq (ite load report) fun _ => seq (loadInteger hE) fun _ =>
    seq expect fun _ => pure rfl

theorem designatorStep {x : Operand} : Blind R (designatorStep E x) := by
  refine seq peek fun k => ?_
  split
  · exact seq advance fun _ => seq fieldOf fun _ => pure rfl
  · exact seq advance fun _ => seq (elementOf hE) fun _ => pure rfl
  · exact pure rfl

theorem designator : Blind R (designator E) :=
  seq namedOperand fun x => loop (fun _ => designatorStep hE) x

theorem argument {s : Signature} {count : Nat} : Blind R (argument E s count) :=
  seq hE fun _ => seq (checkArgument _) fun _ => seq load fun _ => afterMember

theorem packArgument {count : Nat} : ∀ t : Option TypeId, Blind R (packArgument E count t)
  | none => discard hE
  | some _ => seq emit fun _ => seq write fun _ => seq hE fun _ => seq (checkArgument _) fun _ =>
    seq load fun _ => write

theorem extraArguments {t : Option TypeId} : Blind R (extraArguments E t) :=
  seq advance fun _ => seq announcement fun _ => seq (newArrayOf t) fun _ =>
    seq (members fun _ => seq (packArgument hE t) fun _ => afterMember) fun _ => checkCount

theorem variablePart {isMethod : Bool} {t : Option TypeId} : Blind R (variablePart E isMethod t) :=
  seq check fun _ => ite (seq reportIf fun _ => extraArguments hE) (newArrayOf t)

theorem call {x : Operand} : Blind R (call E x) :=
  seq callee fun _ => seq reportIf fun _ => seq expect fun _ => seq (targetSignature _) fun _ =>
    seq (members fun _ => argument hE) fun _ => seq checkCount fun _ => seq (variablePart hE) fun _ =>
      seq expect fun _ => result _

theorem creation : Blind R (creation E) := by
  refine seq namedType fun t => seq check fun _ => ite ?_ ?_
  · exact seq advance fun _ => seq (loadInteger hE) fun _ => seq expect fun _ => seq write fun _ =>
      seq arrayOf fun _ => pure rfl
  · exact seq descriptor fun d => ite (seq write fun _ => pure rfl)
      (seq reportIf fun _ => pure rfl)

theorem designatorFactor : Blind R (designatorFactor E) :=
  seq (designator hE) fun _ => seq check fun _ => ite (seq reportIf fun _ => call hE) (pure rfl)

theorem factor : Blind R (factor E) := by
  refine seq peek fun k => ?_
  split
  · exact designatorFactor hE
  · exact seq literal fun _ => pure rfl
  · exact seq literal fun _ => pure rfl
  · exact seq advance fun _ => creation hE
  · exact seq advance fun _ => seq hE fun _ => seq expect fun _ => pure rfl
  · exact seq report fun _ => pure rfl

omit hE in
theorem operation {operator? : Token.Kind → Option Opcode} {operand : Production Operand}
    {x : Operand} (hy : Blind R operand) : Blind R (operation operator? operand x) := by
  refine seq peek fun k => ?_
  split
  · exact pure rfl
  · exact seq advance fun _ => seq load fun _ => seq hy fun _ => seq load fun _ =>
      seq reportIf fun _ => seq emit fun _ => pure rfl

theorem term : Blind R (term E) := seq (factor hE) fun x => loop (fun _ => operation (factor hE)) x

omit hE in
theorem negate {x : Operand} : Blind R (negate x) := by
  refine ite (seq report fun _ => pure rfl) ?_
  split
  · exact pure rfl
  · exact seq load fun _ => seq emit fun _ => pure rfl

theorem firstTerm : Blind R (firstTerm E) :=
  seq check fun _ => ite (seq advance fun _ => seq (term hE) fun _ => negate) (term hE)

theorem sum : Blind R (sum E) :=
  seq (firstTerm hE) fun x => loop (fun _ => operation (term hE)) x

end Expressions

theorem nestedExpression : ∀ depth, Blind R (nestedExpression depth)
  | 0 => throw _
  | depth + 1 => sum (nestedExpression depth)

theorem expression : Blind R expression := read (nestedExpression _)

/-! ### Conditions and statements -/

theorem comparison : Blind R comparison := by
  refine seq peek fun k => ?_
  split
  · exact seq advance fun _ => pure rfl
  · exact seq report fun _ => pure rfl

theorem checkComparison {x y : Operand} {o : Option Comparison} :
    Blind R (checkComparison x y o) :=
  seq comparable fun _ => ite (seq descriptor fun _ => reportIf) report

theorem test {l l' : Label} : Blind R (test l l') :=
  seq expression fun _ => seq load fun _ => seq comparison fun _ => seq expression fun _ =>
    seq load fun _ => seq checkComparison fun _ => pure rfl

theorem conjunctionStep {l l' : Label} {b : Branch} : Blind R (conjunctionStep l l' b) :=
  seq check fun _ => ite (seq advance fun _ => seq write fun _ => seq test fun _ => pure rfl)
    (pure rfl)

theorem conjunction {l : Label} : Blind R (conjunction l) :=
  seq write fun _ => seq test fun b => loop (fun _ => conjunctionStep) b

theorem conditionStep {l : Label} {b : Branch} : Blind R (conditionStep l b) :=
  seq check fun _ => ite (seq advance fun _ => seq write fun _ => seq write fun _ =>
    seq conjunction fun _ => pure rfl) (pure rfl)

theorem condition : Blind R condition :=
  seq write fun _ => seq conjunction fun b => loop (fun _ => conditionStep) b

theorem assignment {x : Operand} {operator : Option Opcode} : Blind R (assignment x operator) :=
  seq (ite (pure rfl) (ite attempt report)) fun _ => seq expression fun _ => seq reportIf fun _ =>
    seq fits fun _ => ite attempt report

theorem increment {x : Operand} {step : Int32} : Blind R (increment x step) := by
  refine ite report ?_
  split
  · exact write
  · exact attempt

theorem callAlone {x : Operand} : Blind R (callAlone x) :=
  seq (call expression) fun _ => ite emit (pure rfl)

theorem designatorAction {x : Operand} : Blind R (designatorAction x) := by
  refine seq peek fun k => ?_
  split
  · exact seq advance fun _ => assignment
  · split
    · exact callAlone
    · exact seq advance fun _ => increment
    · exact seq advance fun _ => increment
    · exact report

theorem designatorStatement : Blind R designatorStatement :=
  seq (designator expression) fun _ => seq designatorAction fun _ => expect

theorem guardCondition : Blind R guardCondition :=
  seq expect fun _ => seq condition fun _ => seq expect fun _ => seq write fun _ =>
    seq write fun _ => pure rfl

theorem breakStatement {exit : Option Label} : Blind R (breakStatement exit) := by
  refine seq advance fun _ => seq ?_ fun _ => expect
  cases exit
  · exact report
  · exact write

theorem returnValue {t : TypeId} : Blind R (returnValue t) :=
  seq checkAny fun _ => ite (seq expression fun _ => ite report (seq fits fun _ =>
    seq load fun _ => reportIf)) reportIf

theorem returnStatement : Blind R returnStatement := by
  refine seq advance fun _ => bind get fun s s' hs => ?_
  rw [hs.returnType]
  exact seq returnValue fun _ => seq emit fun _ => seq emit fun _ => expect

theorem readInto {x : Operand} : Blind R (readInto x) := by
  unfold Production.readInto
  split
  · exact seq emit fun _ => attempt
  · exact report

theorem readStatement : Blind R readStatement :=
  seq advance fun _ => seq expect fun _ => seq (designator expression) fun _ => seq readInto fun _ =>
    seq expect fun _ => expect

theorem printWidth : Blind R printWidth :=
  read (seq check fun _ => ite (seq advance fun _ => seq check fun _ =>
    ite literal (seq expect fun _ => pure rfl)) (pure rfl))

theorem emitPrint {t : TypeId} : Blind R (emitPrint t) := by
  unfold Production.emitPrint
  split
  · exact emit
  · exact pure rfl

theorem printStatement : Blind R printStatement :=
  seq advance fun _ => seq expect fun _ => seq expression fun _ => seq reportIf fun _ =>
    seq load fun _ => seq printWidth fun _ => seq write fun _ => seq emitPrint fun _ =>
      seq expect fun _ => expect

section Recovery

theorem skipUntil {found : Production Bool} (hf : Blind R found) : Blind R (skipUntil found) :=
  repeatWhile (seq advance fun _ => seq hf fun _ => pure rfl)

/-- The next token is a type name if the one that corresponds is. -/
theorem atTypeName : Blind R atTypeName := by
  refine bind get fun s s' hs => ?_
  dsimp only
  rw [hs.current.kind]
  by_cases hk : s.current.kind = .identifier
  · simp only [hk, ne_eq, not_true_eq_false, ↓reduceIte]
    refine bind Mirrors.table fun t t' ht => ?_
    rw [ht.lookup? (hs.current.name hk)]
    rcases t'.lookup? s'.current.name with _ | id
    · exact pure rfl
    · refine bind (Mirrors.entry _) fun _ _ he => ?_
      obtain ⟨n, rfl⟩ := he
      exact pure rfl
  · simp only [ne_eq, hk, not_false_eq_true, ↓reduceIte]
    exact pure rfl

theorem recoverDeclaration : Blind R recoverDeclaration := by
  refine seq report fun _ => seq (skipUntil (seq checkAny fun _ => ite (pure rfl) ?_)) fun _ => resume
  refine bind get fun s s' hs => ?_
  rw [hs.previous.kind]
  exact ite (pure rfl) atTypeName

theorem recoverMethod : Blind R recoverMethod :=
  seq report fun _ => seq (skipUntil checkAny) fun _ => resume

theorem recoverStatement : Blind R recoverStatement :=
  seq report fun _ => seq (skipUntil checkAny) fun _ => seq takeIf fun _ => resume

end Recovery

section Statements

variable {statement : Option Label → Production Unit} (hs : ∀ exit, Blind R (statement exit))

include hs

theorem ifStatement {exit : Option Label} : Blind R (ifStatement statement exit) :=
  seq advance fun _ => seq guardCondition fun _ => seq (hs exit) fun _ => seq check fun _ =>
    ite (seq advance fun _ => seq write fun _ => seq write fun _ => seq write fun _ =>
      seq (hs exit) fun _ => write) write

theorem whileStatement : Blind R (whileStatement statement) :=
  seq advance fun _ => seq write fun _ => seq write fun _ => seq guardCondition fun _ =>
    seq write fun exit => seq (hs (some exit)) fun _ => seq write fun _ => seq write fun _ => write

theorem blockOf {exit : Option Label} : Blind R (blockOf statement exit) := by
  refine seq expect fun _ => seq (repeatWhile (seq peek fun k => ?_)) fun _ => expect
  split
  · exact pure rfl
  · exact pure rfl
  · exact seq (hs exit) fun _ => pure rfl

theorem statementOf {exit : Option Label} : Blind R (statementOf statement exit) := by
  refine seq peek fun k => ?_
  split
  · exact designatorStatement
  · exact ifStatement hs
  · exact whileStatement hs
  · exact breakStatement
  · exact returnStatement
  · exact readStatement
  · exact printStatement
  · exact blockOf hs
  · exact advance
  · exact recoverStatement

end Statements

theorem nestedStatement : ∀ depth exit, Blind R (nestedStatement depth exit)
  | 0, _ => throw _
  | depth + 1, _ => statementOf fun exit => nestedStatement depth exit

theorem block : Blind R block := read (blockOf fun exit => nestedStatement _ exit)

/-! ### Declarations -/

theorem constantDeclaration : Blind R constantDeclaration := by
  refine seq advance fun _ => seq type fun _ => bind Mirrors.identifier fun _ _ hn =>
    seq (Mirrors.declare hn _ _) fun id => seq expect fun _ => seq (seq peek fun k => ?_) fun _ => expect
  split
  · exact seq reportIf fun _ => seq literal fun _ => updateEntry fun _ _ => rfl
  · exact report

theorem countGlobal {id : EntryId} : Blind R (countGlobal id) := by
  refine bind Mirrors.table fun t t' ht => ?_
  rw [ht.level]
  exact ite write (pure rfl)

theorem variableName {t : TypeId} : Blind R (variableName t) :=
  bind Mirrors.identifier fun _ _ hn => seq (Mirrors.declare hn _ _) fun _ => seq countGlobal fun _ =>
    seq check fun _ => ite (seq advance fun _ => pure rfl) (pure rfl)

theorem variableDeclaration : Blind R variableDeclaration :=
  seq type fun _ => seq (repeatWhile variableName) fun _ => expect

theorem variableDeclarations : Blind R variableDeclarations :=
  repeatWhile (seq check fun _ => ite (seq variableDeclaration fun _ => pure rfl) (pure rfl))

theorem closeScope : Mirrors R (fun l l' => l = l' ∧ ∀ id ∈ l, id.Declared) closeScope closeScope :=
  withTable fun _ _ ht =>
    have h := ht.closeScope
    ⟨⟨h.1.symm, h.2.1⟩, h.2.2⟩

theorem classDeclaration : Blind R classDeclaration := by
  refine seq advance fun _ => bind Mirrors.identifier fun _ _ hn => seq newClass fun _ =>
    seq (discard (Mirrors.declare hn _ _)) fun _ => seq expect fun _ => seq openScope fun _ =>
      seq variableDeclarations fun _ => read (bind Mirrors.table fun t t' ht => ?_)
  rw [ht.current.variableCount]
  refine seq reportIf fun _ => bind closeScope fun l l' hl => ?_
  obtain ⟨rfl, hdeclared⟩ := hl
  exact seq (discard descriptor) fun _ =>
    seq (updateTable fun _ _ ht => ht.setFields _ hdeclared) fun _ => expect

theorem parameter {u : Unit} : Blind R (parameter u) :=
  seq type fun _ => bind Mirrors.identifier fun _ _ hn => seq (Mirrors.declare hn _ _) fun _ =>
    seq check fun _ => ite
      (seq advance fun _ => seq arrayOf fun _ => seq (updateEntry fun _ _ => rfl) fun _ => pure rfl)
      (seq check fun _ => ite (seq advance fun _ => pure rfl) (pure rfl))

theorem parameters : Blind R parameters :=
  seq check fun _ => ite (loop (fun _ => parameter) ()) (pure rfl)

theorem resultType : Blind R resultType :=
  seq check fun _ => ite (seq advance fun _ => pure rfl) type

theorem updateMethod {id : EntryId} {f : Method → Method} : Blind R (updateMethod id f) :=
  updateEntry fun e n => by
    rcases e with ⟨_, _, meaning⟩
    cases meaning <;> rfl

theorem setReturnType {t : TypeId} : Blind R (setReturnType t) :=
  modify fun _ _ hs => ⟨hs.ahead, hs.last, hs.current, hs.previous, hs.distance, hs.problems, hs.table,
    hs.assembly, rfl⟩

theorem header {id : EntryId} : Blind R (header id) := by
  refine seq expect fun _ => seq parameters fun _ => seq expect fun _ =>
    bind Mirrors.table fun t t' ht => ?_
  dsimp only
  rw [ht.current.variableCount, ht.current.locals]
  exact seq updateMethod fun _ => pure rfl

theorem beginning {id : EntryId} {isEntry : Bool} {parameters size : Nat} :
    Blind R (beginning id isEntry parameters size) :=
  seq write fun _ => seq updateMethod fun _ => seq write fun _ => write

theorem ending {t : TypeId} : Blind R (ending t) := ite (seq emit fun _ => emit) emit

theorem methodBody {id : EntryId} {isEntry : Bool} {t : TypeId} {parameters : Nat} :
    Blind R (methodBody id isEntry t parameters) := by
  refine seq variableDeclarations fun _ => bind Mirrors.table fun t t' ht => ?_
  rw [ht.current.variableCount]
  exact read (seq reportIf fun _ => seq beginning fun _ => seq block fun _ => ending)

/-- Whether a method is the entry method is the same, because the name of that is fixed. -/
theorem methodDeclaration : Blind R methodDeclaration := by
  refine seq resultType fun _ => bind Mirrors.identifier fun n n' hn =>
    seq (Mirrors.declare hn _ _) fun id => seq setReturnType fun _ => seq openScope fun _ =>
      seq header fun _ => read ?_
  have hentry : decide (id ≠ .none ∧ n = c.options.entryName) =
      decide (id ≠ .none ∧ n' = c.options.entryName) := by
    simp only [R.oneToOne hn R.entry]
  dsimp only
  rw [hentry]
  refine seq reportIf fun _ => seq reportIf fun _ => seq methodBody fun _ =>
    bind closeScope fun l l' hl => ?_
  obtain ⟨rfl, -⟩ := hl
  exact seq updateMethod fun _ => setReturnType

theorem declarations : Blind R declarations := by
  refine repeatWhile (seq peek fun k => ?_)
  split
  · exact seq constantDeclaration fun _ => pure rfl
  · exact seq classDeclaration fun _ => pure rfl
  · exact seq variableDeclaration fun _ => pure rfl
  · exact pure rfl
  · exact pure rfl
  · exact seq recoverDeclaration fun _ => pure rfl

theorem methods : Blind R methods := by
  refine repeatWhile (seq peek fun k => ?_)
  split
  · exact seq methodDeclaration fun _ => pure rfl
  · exact seq methodDeclaration fun _ => pure rfl
  · exact pure rfl
  · exact pure rfl
  · exact seq recoverMethod fun _ => pure rfl

theorem program : Blind R program := by
  refine seq expect fun _ => bind Mirrors.identifier fun _ _ hn => seq (Mirrors.declare hn _ _) fun id =>
    seq openScope fun _ => seq declarations fun _ => read (bind Mirrors.table fun t t' ht => ?_)
  rw [ht.current.locals]
  refine seq reportIf fun _ => seq expect fun _ => seq methods fun _ => bind get fun s s' hs => ?_
  rw [hs.assembly]
  refine read (seq reportIf fun _ => seq expect fun _ => bind closeScope fun l l' hl => ?_)
  obtain ⟨rfl, -⟩ := hl
  exact updateEntry fun _ _ => rfl

theorem sourceFile : Blind R sourceFile := seq advance fun _ => seq program fun _ => expect

end Blind

end Production

end MicroJava
