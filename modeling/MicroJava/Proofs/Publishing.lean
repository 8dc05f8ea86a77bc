import MicroJava.Proofs.EvolvingProgram
import MicroJava.Proofs.Settling

/-!
# Publishing what is known of methods and classes

Every production takes the symbol table from one stage to another one (`Production.Follows`), also where it
stops at a fault, and those of expressions and statements stay at the stage at which they start
(`Production.Stays`). So whatever mistakes a text has, the parameters of a method are known from its header
on as they were declared there, its locals are numbered, and calls of it in its own block are checked
against the same as calls behind it; and the fields of a class are numbered and have different names.
-/

namespace MicroJava

namespace Production

variable {α β : Type} {c : Setting} {σ : Stage} {s : Session}

/-- The production takes the table to another stage, and if it ends, its result, the stage and the table
are as `Q` says. -/
def Follows (c : Setting) (σ : Stage) (s : Session) (m : Production α)
    (Q : α → Stage → SymbolTable → Prop) : Prop :=
  ∃ σ', σ.Leads s.table σ' (m.outcome c s).2.table ∧ ∀ a s', Runs c m s a s' → Q a σ' s'.table

/-- The production stays at its stage. -/
def Stays (c : Setting) (σ : Stage) (m : Production α) : Prop :=
  ∀ s, σ.Leads s.table σ (m.outcome c s).2.table

namespace Follows

variable {m m' : Production α} {f : α → Production β} {Q Q' : α → Stage → SymbolTable → Prop}
  {R : β → Stage → SymbolTable → Prop}

theorem mono (h : Follows c σ s m Q) (hQ : ∀ a σ' t, Q a σ' t → Q' a σ' t) : Follows c σ s m Q' := by
  obtain ⟨σ', hleads, hresult⟩ := h
  exact ⟨σ', hleads, fun a s' hrun => hQ a σ' s'.table (hresult a s' hrun)⟩

theorem bind (hm : Follows c σ s m Q)
    (hf : ∀ a σ₁ s₁, σ.Leads s.table σ₁ s₁.table → Q a σ₁ s₁.table → Follows c σ₁ s₁ (f a) R) :
    Follows c σ s (m >>= f) R := by
  obtain ⟨σ₁, hleads, hresult⟩ := hm
  rcases hr : outcome m c s with ⟨e | a, s₁⟩
  · rw [hr] at hleads
    refine ⟨σ₁, by rw [outcome_bind, hr]; exact hleads, fun b s' hrun => ?_⟩
    obtain ⟨a, s₂, h, -⟩ := runs_bind.1 hrun
    simp [Runs, hr] at h
  · rw [hr] at hleads
    obtain ⟨σ', hleads', hresult'⟩ := hf a σ₁ s₁ hleads (hresult a s₁ hr)
    refine ⟨σ', by rw [outcome_bind, hr]; exact hleads.trans hleads', fun b s' hrun => ?_⟩
    obtain ⟨a', s₂, h₁, h₂⟩ := runs_bind.1 hrun
    obtain ⟨ha, rfl⟩ : a = a' ∧ s₁ = s₂ := by simpa [Runs, hr] using h₁
    exact hresult' b s' (ha ▸ h₂)

theorem pure {a : α} (h : Q a σ s.table) : Follows c σ s (pure a) Q := by
  refine ⟨σ, .refl, fun b s' hrun => ?_⟩
  obtain ⟨rfl, rfl⟩ := runs_pure.1 hrun
  exact h

theorem ite {p : Prop} [Decidable p] (hm : p → Follows c σ s m Q) (hm' : ¬p → Follows c σ s m' Q) :
    Follows c σ s (if p then m else m') Q := by
  split
  · next h => exact hm h
  · next h => exact hm' h

/-- A production that ends with this table. -/
theorem of_runs {σ' : Stage} {a : α} {s' : Session} (h : Runs c m s a s')
    (hleads : σ.Leads s.table σ' s'.table) (hQ : Q a σ' s'.table) : Follows c σ s m Q := by
  refine ⟨σ', by rwa [show m.outcome c s = (.ok a, s') from h], fun b s₁ hrun => ?_⟩
  obtain ⟨rfl, rfl⟩ : a = b ∧ s' = s₁ := by simpa using h.symm.trans hrun
  exact hQ

theorem read {f : Setting → Production α} (hf : Follows c σ s (f c) Q) :
    Follows c σ s (MonadReader.read >>= f) Q := by
  obtain ⟨σ', hleads, hresult⟩ := hf
  refine ⟨σ', by rwa [outcome_bind, outcome_read], fun a s' hrun => ?_⟩
  obtain ⟨_, _, hread, hrun⟩ := runs_bind.1 hrun
  obtain ⟨rfl, rfl⟩ := runs_read.1 hread
  exact hresult a s' hrun

/-- The turns of a loop, between which the table is at the same kind of stage. -/
theorem loop {body : α → Production (α ⊕ β)} {I : Stage → Prop}
    (hbody : ∀ a σ s, I σ → Follows c σ s (body a) fun r σ' t => I σ' ∧ ∀ b, r = .inr b → R b σ' t)
    (hσ : I σ) (a : α) : Follows c σ s (loop body a) R := by
  have hiterate : ∀ n a σ s, I σ → Follows c σ s (iterate body n a) R := by
    intro n
    induction n with
    | zero => exact fun a σ s _ => ⟨σ, .refl, fun b s' hrun => absurd hrun runs_throw⟩
    | succ n ih =>
      intro a σ s hσ
      refine (hbody a σ s hσ).bind fun r σ₁ s₁ _ ⟨hσ₁, hR⟩ => ?_
      rcases r with a' | b
      · exact ih a' σ₁ s₁ hσ₁
      · exact .pure (hR b rfl)
  exact .read (hiterate _ a σ s hσ)

end Follows

namespace Stays

variable {m : Production α} {f : α → Production β} {R : β → Stage → SymbolTable → Prop}

theorem follows (h : Stays c σ m) : Follows c σ s m fun _ σ' _ => σ' = σ := ⟨σ, h s, fun _ _ _ => rfl⟩

theorem andThen (hm : Stays c σ m)
    (hf : ∀ a s₁, σ.Leads s.table σ s₁.table → Follows c σ s₁ (f a) R) : Follows c σ s (m >>= f) R :=
  hm.follows.bind fun a _ s₁ hleads h => by
    subst h
    exact hf a s₁ hleads

theorem composes : Composes c fun m => Stays c σ m where
  still h s := by
    rw [h s]
    exact .refl
  bind {_ _ m f} hm hf s := by
    have hleads := hm s
    rw [outcome_bind]
    rcases hr : outcome m c s with ⟨e | a, s₁⟩
    · rwa [hr] at hleads
    · rw [hr] at hleads
      exact hleads.trans (hf a s₁)
  read h s := by
    rw [outcome_bind, outcome_read]
    exact h s

theorem visits : Visits c fun m => Stays c σ m := composes.visits

theorem pure (a : α) : Stays c σ (pure a) := composes.pure a

theorem bind (hm : Stays c σ m) (hf : ∀ a, Stays c σ (f a)) : Stays c σ (m >>= f) :=
  composes.bind hm hf

theorem ite {p : Prop} [Decidable p] {m' : Production α} (hm : p → Stays c σ m)
    (hm' : ¬p → Stays c σ m') : Stays c σ (if p then m else m') := by
  split
  · next h => exact hm h
  · next h => exact hm' h

/-! ### Expressions and statements -/

theorem arrayOf (element : TypeId) : Stays c σ (arrayOf element) := fun _ =>
  .step .refl (.arrayOf element)

theorem type : Stays c σ type := visits.type arrayOf

theorem resultType : Stays c σ resultType := visits.resultType arrayOf

/-- Expressions and statements stay at any stage: they add no more than array types. -/
theorem visitsBlocks : VisitsBlocks c fun m => Stays c σ m := visits.visitsBlocks arrayOf

/-! ### Variables -/

theorem declare {category : Category} {name : String} {type : TypeId}
    (hσ : ∀ t : SymbolTable, σ.Step t σ (t.declare category name type).2) :
    Stays c σ (declare category name type) := by
  refine .ite (fun _ => .pure _) fun _ => .bind (fun s => .step .refl (hσ s.table)) fun r => ?_
  split
  · exact .pure _
  · exact .bind composes.report fun _ => .pure _

end Stays

/-- Variables may be declared at a stage. -/
def TakesVariables (σ : Stage) : Prop :=
  ∀ (t : SymbolTable) (name : String) (type : TypeId), σ.Step t σ (t.declare .var name type).2

theorem Stays.variableDeclaration (hσ : TakesVariables σ) : Stays c σ variableDeclaration :=
  visits.variableDeclaration arrayOf fun name t => declare fun t' => hσ t' name t

theorem Stays.variableDeclarations (hσ : TakesVariables σ) : Stays c σ variableDeclarations :=
  visits.variableDeclarations arrayOf fun name t => declare fun t' => hσ t' name t

/-! ### Declarations -/

/-- A name is declared as a new entry, or the table stays as it is. -/
theorem declare_cases (c : Setting) (s : Session) (category : Category) (name : String) (type : TypeId) :
    (∃ s', Runs c (declare category name type) s .none s' ∧ s'.table = s.table) ∨
      ∃ s', Runs c (declare category name type) s ⟨s.table.entries.size⟩ s' ∧
        s.table.declare category name type = (.ok ⟨s.table.entries.size⟩, s'.table) ∧
        s'.table = (s.table.bind ⟨name, type, s.table.meaningOf category⟩).2 := by
  by_cases hname : name = ""
  · exact .inl ⟨s, runs_declare.2 (.inl ⟨hname, rfl, rfl⟩), rfl⟩
  rcases s.table.declare_cases category name type with heq | ⟨hfind, heq⟩
  · refine .inl ⟨_, runs_declare.2 (.inr (.inl ⟨hname, ?_, rfl, rfl⟩)), rfl⟩
    by_contra hnone
    simp [SymbolTable.declare, hnone] at heq
  · exact .inr ⟨_, runs_declare.2 (.inr (.inr ⟨hname, hfind, rfl, rfl⟩)), heq, rfl⟩

/-- An entry that stands for no name, or for neither a variable nor a method. -/
def Definable (t : SymbolTable) (id : EntryId) : Prop :=
  id = .none ∨ id.index < t.entries.size ∧ t.PlainAt id

theorem Definable.mono {t t' : SymbolTable} {id : EntryId} (h : Definable t id) (ht : t.Retains t') :
    Definable t' id :=
  h.imp_right fun ⟨hid, hplain⟩ => ⟨Nat.lt_of_lt_of_le hid ht.size, ht.plainAt hid hplain⟩

theorem update_none (t : SymbolTable) (f : Entry → Entry) : t.update .none f = t := by
  simp [SymbolTable.update, SymbolTable.changeable]

theorem follows_define {id : EntryId} {meaning : Meaning} (h : Definable s.table id)
    (hmeaning : meaning.IsPlain) :
    Follows c σ s (updateEntry id fun e => { e with meaning }) fun _ σ' _ => σ' = σ := by
  refine .of_runs (a := ()) (runs_updateEntry.2 rfl) ?_ rfl
  rcases h with rfl | ⟨-, hplain⟩
  · rw [update_none]
    exact .refl
  · exact .step .refl (.define hplain hmeaning)

/-- What is neither a variable nor a method can be given its meaning behind its declaration. -/
theorem follows_declare {category : Category} {name : String} {type : TypeId}
    (hσ : σ.Step s.table σ (s.table.declare category name type).2)
    (hmeaning : (s.table.meaningOf category).IsPlain) :
    Follows c σ s (declare category name type) fun id σ' t => σ' = σ ∧ Definable t id := by
  rcases declare_cases c s category name type with ⟨s', hrun, ht⟩ | ⟨s', hrun, heq, ht⟩
  · exact .of_runs hrun (ht ▸ .refl) ⟨rfl, .inl rfl⟩
  · rw [heq] at hσ
    refine .of_runs hrun (.step .refl hσ) ⟨rfl, .inr ⟨by simp [ht], ?_, ?_⟩⟩
    · rw [ht, SymbolTable.slotAt?_bind, if_pos rfl]
      revert hmeaning
      cases category <;> first | exact fun _ => rfl | exact False.elim
    · rw [ht, SymbolTable.methodAt?_bind, if_pos rfl]
      revert hmeaning
      cases category <;> first | exact fun _ => rfl | exact False.elim

theorem follows_constantDeclaration :
    Follows c .program s constantDeclaration fun _ σ' _ => σ' = .program := by
  refine (Stays.visits.advance).andThen fun _ s₁ _ => ?_
  refine Stays.type.andThen fun t s₂ _ => ?_
  refine Stays.visits.identifier.andThen fun name s₃ _ => ?_
  refine Follows.bind (follows_declare (.declare _ _ _ (by simp)) trivial) ?_
  rintro id _ s₄ - ⟨rfl, hid⟩
  refine Stays.visits.expect.andThen fun _ s₅ h₅ => ?_
  have hvalue : Follows c .program s₅ (constantValue id t) fun _ σ' _ => σ' = .program := by
    refine Stays.visits.peek.andThen fun k s₆ h₆ => ?_
    split
    · refine Stays.composes.reportIf.andThen fun _ s₇ h₇ => ?_
      refine Stays.visits.literal.andThen fun v s₈ h₈ => ?_
      exact follows_define (hid.mono (h₅.trans (h₆.trans (h₇.trans h₈))).retains) trivial
    · exact Stays.composes.report.follows
  refine hvalue.bind ?_
  rintro _ _ s₆ - rfl
  exact Stays.visits.expect.follows

theorem follows_classDeclaration :
    Follows c .program s classDeclaration fun _ σ' _ => σ' = .program := by
  refine Stays.visits.advance.andThen fun _ s₁ _ => ?_
  refine Stays.visits.identifier.andThen fun name s₂ _ => ?_
  refine Stays.andThen (fun s => .step .refl .newClass) fun ty s₃ _ => ?_
  refine Stays.andThen (Stays.visits.discard (Stays.declare fun _ => .declare _ _ _ (by simp)))
    fun _ s₄ _ => ?_
  refine Stays.visits.expect.andThen fun _ s₅ _ => ?_
  refine Follows.bind (.of_runs (a := ()) (runs_openScope.2 rfl) (.step .refl (.openClass ty))
    (Q := fun _ σ' _ => σ' = .fields ty) rfl) ?_
  rintro _ _ s₆ - rfl
  refine (Stays.variableDeclarations fun _ _ _ => .field _ _).andThen fun _ s₇ _ => .read ?_
  refine Stays.visits.table.andThen fun _ s₈ _ => ?_
  refine Stays.composes.reportIf.andThen fun _ s₉ _ => ?_
  refine Follows.bind (.of_runs (runs_closeScope.2 ⟨rfl, rfl⟩) (.step .refl .closeClass)
    (Q := fun fields σ' _ => σ' = .attaching ty fields) rfl) ?_
  rintro fields _ s₁₀ - rfl
  refine (Stays.visits.discard Stays.visits.descriptor).andThen fun _ s₁₁ _ => ?_
  refine Follows.bind (.of_runs (a := ()) (runs_updateTable.2 rfl) (.step .refl .attach)
    (Q := fun _ σ' _ => σ' = .program) rfl) ?_
  rintro _ _ s₁₂ - rfl
  exact Stays.visits.expect.follows

/-! ### Methods -/

/-- An entry that stands for no name, or for a method. -/
def Callable (t : SymbolTable) (id : EntryId) : Prop :=
  id = .none ∨ id.index < t.entries.size ∧ (t.methodAt? id).isSome

theorem Callable.mono {t t' : SymbolTable} {id : EntryId} (h : Callable t id) (ht : t.Retains t') :
    Callable t' id :=
  h.imp_right fun ⟨hid, hmethod⟩ =>
    ⟨Nat.lt_of_lt_of_le hid ht.size, by rw [ht.isMethod id hid, hmethod]⟩

/-- A method is declared without parameters, or read without a name. -/
theorem follows_declareMethod {name : String} {type : TypeId} :
    Follows c .program s (declare .method name type) fun id σ' t => σ' = .named id ∧ Callable t id := by
  rcases declare_cases c s .method name type with ⟨s', hrun, ht⟩ | ⟨s', hrun, heq, ht⟩
  · refine .of_runs hrun ?_ ⟨rfl, .inl rfl⟩
    rw [ht]
    exact .step .refl .nameless
  · have hstep := Stage.Step.method (t := s.table) name type
    rw [SymbolTable.declared, heq] at hstep
    refine .of_runs hrun (.step .refl hstep) ⟨rfl, .inr ⟨by simp [ht], ?_⟩⟩
    rw [ht, SymbolTable.methodAt?_bind, if_pos rfl]
    rfl

theorem follows_parameter {id : EntryId} {ids : List EntryId} :
    Follows c (.header id ids) s (parameter ()) fun _ σ' _ => ∃ ids, σ' = .header id ids := by
  refine Stays.type.andThen fun ty s₁ _ => ?_
  refine Stays.visits.identifier.andThen fun name s₂ _ => ?_
  -- a parameter that cannot be declared leaves no name behind
  have hdeclare : Follows c (.header id ids) s₂ (declare .var name ty)
      fun x σ' _ => ∃ ids, σ' = .header id ids ∧ (x = .none ∨ x ∈ ids) := by
    rcases declare_cases c s₂ .var name ty with ⟨s', hrun, ht⟩ | ⟨s', hrun, heq, -⟩
    · exact .of_runs hrun (ht ▸ .refl) ⟨ids, rfl, .inl rfl⟩
    · have hstep : Stage.Step (.header id ids) s₂.table _ _ := .parameter name ty
      rw [heq] at hstep
      exact .of_runs hrun (.step .refl hstep) ⟨_, rfl, .inr (by simp [Except.toOption])⟩
  refine hdeclare.bind ?_
  rintro x _ s₃ - ⟨ids, rfl, hx⟩
  refine Stays.visits.check.andThen fun _ s₄ _ => .ite (fun _ => ?_) fun _ => ?_
  · refine Stays.visits.advance.andThen fun _ s₅ _ => ?_
    refine (Stays.arrayOf ty).andThen fun array s₆ _ => ?_
    refine Follows.bind (Q := fun _ σ' _ => ∃ ids, σ' = .header id ids) ?_ fun _ _ _ _ h => .pure h
    refine .of_runs (a := ()) (runs_updateEntry.2 rfl) ?_ ⟨ids, rfl⟩
    rcases hx with rfl | hx
    · rw [update_none]
      exact .refl
    · exact .step .refl (.collect array hx)
  · refine (Stays.visits.check.andThen fun _ s₅ _ => .ite (fun _ => ?_) fun _ => .pure ⟨ids, rfl⟩)
    exact Stays.visits.advance.andThen fun _ s₆ _ => .pure ⟨ids, rfl⟩

/-- The parameters of a method are published behind its header. -/
theorem follows_header {id : EntryId} :
    Follows c (.header id []) s (header id) fun n σ' t => σ' = .body id ∧ ∃ ids t₁ variadic,
      Stage.Leads (.header id []) s.table (.header id ids) t₁ ∧ t = t₁.publish id variadic ∧
        n = t₁.current.variableCount := by
  refine Stays.visits.expect.andThen fun _ s₁ h₁ => ?_
  have hparameters : Follows c (.header id []) s₁ parameters
      fun _ σ' _ => ∃ ids, σ' = .header id ids := by
    refine Stays.visits.check.andThen fun _ s₂ _ => .ite (fun _ => ?_) fun _ => .pure ⟨_, rfl⟩
    refine Follows.loop (I := fun σ => ∃ ids, σ = .header id ids) ?_ ⟨_, rfl⟩ ()
    rintro _ _ s₃ ⟨ids, rfl⟩
    exact follows_parameter.mono fun _ _ _ h => ⟨h, fun _ _ => h⟩
  refine hparameters.bind ?_
  rintro variadic _ s₂ h₂ ⟨ids, rfl⟩
  refine Stays.visits.expect.andThen fun _ s₃ h₃ => ?_
  refine Follows.bind (.of_runs (runs_table.2 ⟨rfl, rfl⟩) .refl
    (Q := fun t σ' t' => t = t' ∧ σ' = .header id ids) ⟨rfl, rfl⟩) ?_
  rintro _ _ s₄ h₄ ⟨rfl, rfl⟩
  refine Follows.bind (.of_runs (a := ()) (runs_updateEntry.2 rfl) (.step .refl (.publish variadic))
    (Q := fun _ σ' t => σ' = .body id ∧ t = s₄.table.publish id variadic) ⟨rfl, rfl⟩) ?_
  rintro _ _ s₅ - ⟨rfl, ht⟩
  exact .pure ⟨rfl, ids, s₄.table, variadic, h₁.trans (h₂.trans (h₃.trans h₄)), ht, rfl⟩

/-- Between the header of a method and its block, the parameters are known. -/
theorem follows_methodHead : Follows c .program s methodHead fun h σ' t => σ' = .body h.id ∧
    ∃ ids t₁ variadic, Stage.Leads .program s.table (.header h.id ids) t₁ ∧ Callable t₁ h.id ∧
      t = t₁.publish h.id variadic ∧ h.parameters = t₁.current.variableCount := by
  refine Stays.resultType.andThen fun ty s₁ h₁ => ?_
  refine Stays.visits.identifier.andThen fun name s₂ h₂ => ?_
  refine follows_declareMethod.bind ?_
  rintro id _ s₃ h₃ ⟨rfl, hid⟩
  refine Stays.andThen (fun _ => .refl) fun _ s₄ h₄ => ?_
  refine Follows.bind (.of_runs (a := ()) (runs_openScope.2 rfl) (.step .refl .openMethod)
    (Q := fun _ σ' _ => σ' = .header id []) rfl) ?_
  rintro _ _ s₅ h₅ rfl
  refine follows_header.bind ?_
  rintro n _ s₆ h₆ ⟨rfl, ids, t₁, variadic, hleads, ht, hn⟩
  have hhead := h₄.trans (h₅.trans hleads)
  exact .pure ⟨rfl, ids, t₁, variadic, h₁.trans (h₂.trans (h₃.trans hhead)), hid.mono hhead.retains, ht,
    hn⟩

/-- Behind its header, a method is located and gets the rest of its locals. -/
theorem follows_methodRest {h : Header} :
    Follows c (.body h.id) s (methodRest h) fun _ σ' _ => σ' = .program := by
  refine .read ?_
  refine Stays.composes.reportIf.andThen fun _ s₁ _ => ?_
  refine Stays.composes.reportIf.andThen fun _ s₂ _ => ?_
  have hbeginning : ∀ isEntry parameters size,
      Stays c (.body h.id) (beginning h.id isEntry parameters size) := fun _ _ _ =>
    .bind Stays.visits.write fun address => .bind (fun s => .step .refl (.locate address)) fun _ =>
      .bind Stays.visits.write fun _ => Stays.visits.write
  have hending : ∀ ty, Stays c (.body h.id) (ending ty) := fun ty =>
    .ite (fun _ => .bind Stays.visits.emit fun _ => Stays.visits.emit) fun _ => Stays.visits.emit
  have hbody : ∀ isEntry, Stays c (.body h.id) (methodBody h.id isEntry h.type h.parameters) :=
    fun isEntry => .bind (.variableDeclarations fun _ _ _ => .localVariable _ _) fun _ =>
      .bind Stays.visits.table fun _ => Stays.visits.read <| .bind Stays.composes.reportIf fun _ =>
        .bind (hbeginning _ _ _) fun _ => .bind Stays.visitsBlocks.block fun _ => hending h.type
  refine (hbody _).andThen fun _ s₃ _ => ?_
  refine Follows.bind (.of_runs (runs_closeScope.2 ⟨rfl, rfl⟩) (.step .refl .closeMethod)
    (Q := fun locals σ' _ => σ' = .closing h.id locals) rfl) ?_
  rintro locals _ s₄ - rfl
  refine Follows.bind (.of_runs (a := ()) (runs_updateEntry.2 rfl) (.step .refl .complete)
    (Q := fun _ σ' _ => σ' = .program) rfl) ?_
  rintro _ _ s₅ - rfl
  exact Stays.follows fun _ => .refl

theorem follows_methodDeclaration :
    Follows c .program s methodDeclaration fun _ σ' _ => σ' = .program := by
  rw [methodDeclaration_eq]
  refine follows_methodHead.bind ?_
  rintro h _ s₁ - ⟨rfl, -⟩
  exact follows_methodRest

/-! ### Programs -/

theorem follows_declarationTurn :
    Follows c .program s declarationTurn fun _ σ' _ => σ' = .program := by
  refine Stays.visits.peek.andThen fun k s₁ _ => ?_
  split
  · exact follows_constantDeclaration.bind fun _ _ _ _ h => .pure h
  · exact follows_classDeclaration.bind fun _ _ _ _ h => .pure h
  · exact (Stays.variableDeclaration fun _ _ _ => .declare _ _ _ (by simp)).andThen fun _ _ _ =>
      .pure rfl
  · exact .pure rfl
  · exact .pure rfl
  · exact Stays.visits.recoverDeclaration.andThen fun _ _ _ => .pure rfl

theorem follows_methodTurn : Follows c .program s methodTurn fun _ σ' _ => σ' = .program := by
  refine Stays.visits.peek.andThen fun k s₁ _ => ?_
  split
  · exact follows_methodDeclaration.bind fun _ _ _ _ h => .pure h
  · exact follows_methodDeclaration.bind fun _ _ _ _ h => .pure h
  · exact .pure rfl
  · exact .pure rfl
  · exact Stays.visits.recoverMethod.andThen fun _ _ _ => .pure rfl

theorem Follows.turns {body : Production Bool}
    (hbody : ∀ s, Follows c .program s body fun _ σ' _ => σ' = .program) :
    Follows c .program s (repeatWhile body) fun _ σ' _ => σ' = .program := by
  refine .loop (I := (· = .program)) ?_ rfl ()
  rintro _ _ s rfl
  exact (hbody s).bind fun _ _ _ _ h => .pure ⟨h, fun _ _ => h⟩

theorem stays_middle : Stays c σ middle :=
  Stays.visits.read <| .bind Stays.visits.table fun _ => .bind Stays.composes.reportIf fun _ =>
    Stays.visits.expect

theorem follows_opening :
    Follows c .outside s opening fun id σ' t => σ' = .program ∧ Definable t id := by
  refine Stays.visits.expect.andThen fun _ s₁ _ => ?_
  refine Stays.visits.identifier.andThen fun name s₂ _ => ?_
  refine Follows.bind (follows_declare (.declareProgram _ _) trivial) ?_
  rintro id _ s₃ - ⟨rfl, hid⟩
  refine Follows.bind (.of_runs (a := ()) (runs_openScope.2 rfl) (.step .refl .openProgram)
    (Q := fun _ σ' _ => σ' = .program) rfl) ?_
  rintro _ _ s₄ h₄ rfl
  exact .pure ⟨rfl, hid.mono h₄.retains⟩

theorem follows_closing {id : EntryId} (hid : Definable s.table id) :
    Follows c .program s (closing id) fun _ σ' _ => σ' = .outside := by
  refine Stays.visits.get.andThen fun _ s₁ h₁ => .read ?_
  refine Stays.composes.reportIf.andThen fun _ s₂ h₂ => ?_
  refine Stays.visits.expect.andThen fun _ s₃ h₃ => ?_
  refine Follows.bind (.of_runs (runs_closeScope.2 ⟨rfl, rfl⟩) (.step .refl .closeProgram)
    (Q := fun _ σ' _ => σ' = .outside) rfl) ?_
  rintro members _ s₄ h₄ rfl
  exact follows_define (hid.mono (h₁.trans (h₂.trans (h₃.trans h₄))).retains) trivial

theorem follows_sourceFile : Follows c .outside s sourceFile fun _ σ' _ => σ' = .outside := by
  refine Stays.visits.advance.andThen fun _ s₁ _ => ?_
  have hprogram : Follows c .outside s₁ program fun _ σ' _ => σ' = .outside := by
    rw [program_parts]
    refine follows_opening.bind ?_
    rintro id _ s₂ - ⟨rfl, hid⟩
    refine Follows.bind (.turns fun _ => follows_declarationTurn) ?_
    rintro _ _ s₃ h₃ rfl
    refine stays_middle.andThen fun _ s₄ h₄ => ?_
    refine Follows.bind (.turns fun _ => follows_methodTurn) ?_
    rintro _ _ s₅ h₅ rfl
    exact follows_closing (hid.mono (h₃.trans (h₄.trans h₅)).retains)
  refine hprogram.bind ?_
  rintro _ _ s₂ - rfl
  exact Stays.visits.expect.follows

/-! ### What calls are checked against -/

theorem runs_typesAt {ids : List EntryId} {types : List TypeId} {s' : Session} :
    Runs c (ids.mapM fun id => return (← entry id).type) s types s' ↔
      s.table.typesAt? ids = some types ∧ s' = s := by
  induction ids generalizing types s s' with
  | nil => simp [SymbolTable.typesAt?, eq_comm]
  | cons x ids ih =>
    simp only [List.mapM_cons, runs_bind, runs_entry, runs_pure, ih, SymbolTable.typesAt?,
      SymbolTable.typeAt?]
    constructor
    · rintro ⟨_, _, ⟨e, _, ⟨he, rfl⟩, rfl, rfl⟩, types', _, ⟨htypes, rfl⟩, rfl, rfl⟩
      simp [he, htypes]
    · rintro ⟨h, rfl⟩
      obtain ⟨ty, hty, h⟩ := Option.bind_eq_some_iff.1 h
      obtain ⟨e, he, rfl⟩ := Option.map_eq_some_iff.1 hty
      obtain ⟨types', htypes, h⟩ := Option.bind_eq_some_iff.1 h
      exact ⟨_, _, ⟨e, _, ⟨he, rfl⟩, rfl, rfl⟩, types', _, ⟨htypes, rfl⟩, (Option.some.inj h).symm, rfl⟩

theorem runs_extraType {variadic : Bool} {last extra : Option TypeId} {s' : Session} :
    Runs c (extraType variadic last) s extra s' ↔
      s.table.extraAt? variadic last = some extra ∧ s' = s := by
  rcases variadic with _ | _
  · simp [extraType, SymbolTable.extraAt?, eq_comm]
  rcases last with _ | ty
  · simp [extraType, SymbolTable.extraAt?, eq_comm]
  simp only [extraType, runs_map, runs_descriptor, SymbolTable.extraAt?]
  rcases s.table.types.descriptor? ty with _ | d
  · simp
  · simp [eq_comm, and_comm]

/-- A call is checked against what is in the table in front of it. -/
theorem runs_signature {m : Method} {sig : Signature} {s' : Session} :
    Runs c (signature m) s sig s' ↔ s.table.signature? m = some sig ∧ s' = s := by
  simp only [signature, runs_bind, runs_typesAt, runs_extraType, runs_pure, SymbolTable.signature?]
  rcases s.table.typesAt? m.leading with _ | types
  · simp
  rcases hextra : s.table.extraAt? m.variadic types.getLast? with _ | extra <;> simp [hextra, eq_comm]

/-- So is a call of an operand that stands for a method. -/
theorem runs_calleeSignature {x : Operand} {id : EntryId} {m : Method} {sig : Signature}
    (hx : x.place = .method id) (hm : s.table.methodAt? id = some m)
    (hsig : s.table.signature? m = some sig) : Runs c (callee x >>= targetSignature) s sig s := by
  obtain ⟨e, he, hmethod⟩ := Option.bind_eq_some_iff.1 hm
  refine runs_bind.2 ⟨some (id, m), s, ?_, runs_signature.2 ⟨hsig, rfl⟩⟩
  simp [callee, hx, he, hmethod]

/-! ### Compilations -/

theorem Follows.leads {m : Production α} {Q : α → Stage → SymbolTable → Prop} {a : α} {s' : Session}
    (h : Follows c σ s m Q) (hrun : Runs c m s a s') :
    ∃ σ', σ.Leads s.table σ' s'.table ∧ Q a σ' s'.table := by
  obtain ⟨σ', hleads, hresult⟩ := h
  rw [show m.outcome c s = (.ok a, s') from hrun] at hleads
  exact ⟨σ', hleads, hresult a s' hrun⟩

theorem AtDeclaration.leads {start : Session} (h₀ : start.table = .initial)
    (h : AtDeclaration c start s) : Stage.Leads .outside .initial .program s.table := by
  induction h with
  | first hrun =>
    obtain ⟨_, hleads, rfl, -⟩ := follows_opening.leads hrun
    rwa [show start.advance.table = .initial from h₀] at hleads
  | next _ hrun ih =>
    obtain ⟨_, hleads, rfl⟩ := follows_declarationTurn.leads hrun
    exact ih.trans hleads

theorem AtMethod.leads {start : Session} (h₀ : start.table = .initial) (h : AtMethod c start s) :
    Stage.Leads .outside .initial .program s.table := by
  induction h with
  | first hat hrun hmiddle =>
    obtain ⟨_, hleads, rfl⟩ := follows_declarationTurn.leads hrun
    obtain ⟨_, hleads', rfl⟩ := stays_middle.follows.leads hmiddle
    exact (hat.leads h₀).trans (hleads.trans hleads')
  | next _ hrun ih =>
    obtain ⟨_, hleads, rfl⟩ := follows_methodTurn.leads hrun
    exact ih.trans hleads

/-- Behind the header of a method, its locals are the parameters that could be declared, in their order;
and from there on, calls of it are checked against the same. -/
structure Published (c : Setting) (h : Header) (ids : List EntryId) (s : Session) : Prop where
  stage : ∃ t variadic, Stage.Leads .outside .initial (.header h.id ids) t ∧
    s.table = t.publish h.id variadic
  count : h.parameters = ids.length
  calls : h.id ≠ .none → ∃ m sig, s.table.methodAt? h.id = some m ∧ m.parameters = ids.length ∧
    m.locals = ids ∧ ∀ σ s', Stage.Leads (.body h.id) s.table σ s'.table →
      (∃ m', s'.table.methodAt? h.id = some m' ∧ m'.parameters = ids.length ∧ m'.leading = ids ∧
        m'.variadic = m.variadic) ∧
      ∀ x : Operand, x.place = .method h.id → Runs c (callee x >>= targetSignature) s' sig s'

theorem published {start : Session} (h₀ : start.table = .initial) (hat : AtMethod c start s) {h : Header}
    {s₁ : Session} (hrun : Runs c methodHead s h s₁) : ∃ ids, Published c h ids s₁ := by
  obtain ⟨_, hleads, rfl, ids, t, variadic, hheader, hmethod, ht, hcount⟩ :=
    follows_methodHead.leads hrun
  have hheader₀ := (hat.leads h₀).trans hheader
  have hupholds := hheader₀.upholds .initial
  have hcurrent : t.current.locals.toList = ids := hupholds.holds.1
  have hlength : t.current.variableCount = ids.length := by
    rw [← hcurrent, Array.length_toList, (hupholds.current rfl).size_locals (Nat.lt_succ_self _)]
  have hupholds₁ := ((hat.leads h₀).trans hleads).upholds .initial
  have hclosed : s₁.table.Closed := by
    have hreachable := (hat.reachable h₀).1
    have hevolves := (evolves_methodHead (c := c) hreachable).table
    rw [show methodHead.outcome c s = (.ok h, s₁) from hrun] at hevolves
    exact (hreachable.evolves hevolves).closed
  refine ⟨ids, ⟨t, variadic, hheader₀, ht⟩, hcount.trans hlength, fun hid => ?_⟩
  obtain ⟨m₀, hm₀⟩ := Option.isSome_iff_exists.1 (hmethod.resolve_left hid).2
  let m : Method := { m₀ with parameters := ids.length, variadic, locals := ids }
  have hm : s₁.table.methodAt? h.id = some m := by
    rw [ht, SymbolTable.publish, SymbolTable.methodAt?_updateMethod, if_pos ⟨rfl, hid⟩, hm₀,
      hlength, hcurrent]
    rfl
  obtain ⟨sig, hsig⟩ := hclosed.exists_signature hm
  refine ⟨m, sig, hm, rfl, rfl, fun σ s' hleads' => ?_⟩
  obtain ⟨-, m', hm', hagrees⟩ := hleads'.settles hupholds₁ hm (by simp [Stage.reading?])
  refine ⟨⟨m', hm', hagrees.parameters, ?_, hagrees.variadic⟩, fun x hx => ?_⟩
  · rw [hagrees.leading, Method.leading]
    exact List.take_length
  · exact runs_calleeSignature hx hm' (hagrees.signature? hsig)

end Production

/-- The variables of methods and the fields of classes are in order. -/
structure SymbolTable.Ordered (t : SymbolTable) : Prop where
  /-- The locals of a method of the program, which has no more parameters than locals, are variables with
  the slots from zero on. -/
  locals : ∀ id m, SymbolTable.initial.entries.size ≤ id.index → t.methodAt? id = some m →
    m.parameters ≤ m.locals.length ∧
      ∀ i x, m.locals[i]? = some x → t.slotAt? x = some (i, SymbolTable.programLevel + 1)
  /-- The fields of a class are variables with the slots from zero on. -/
  fields : ∀ ty i x, (t.types.fields ty)[i]? = some x → ∃ level, t.slotAt? x = some (i, level)
  /-- The fields of a class have different names. -/
  names : ∀ ty, ((t.types.fields ty).map t.nameAt?).Nodup
  /-- A field that is found is the only one with its name. -/
  findField : ∀ name ty id,
    t.findField name ty = .ok id ↔ id ∈ t.types.fields ty ∧ t.nameAt? id = some name

theorem Stage.Upholds.ordered {σ : Stage} {t : SymbolTable} (h : σ.Upholds t) : t.Ordered where
  locals id m hid hm := ⟨(h.methods id m hm).parameters, (h.methods id m hm).slots hid⟩
  fields := h.numbered.fields
  names := h.fields
  findField _ _ _ := h.findField_eq_ok_iff

/-- Every table of a compilation comes about stage by stage, whether the text has mistakes or not, and in
every table that does so the locals of methods and the fields of classes are numbered in their order, a
method has no more parameters than locals, and a field is found as the only one of its class with its
name. Behind the header of each method, its locals are the parameters that could be declared, and in every
table that this one leads to they are its first locals, and calls of the method are checked against the
same parameter types, number and type of variable arguments: the rest of the method leads on from there,
so does each further turn of the loop over the methods, and the expressions and statements of a block stay
at their stage. -/
theorem compile_publishes (source : String) (options : Options) :
    let c := Setting.ofStream options (Token.scan source)
    let start := Session.start (Token.scan source) options
    let run := Production.sourceFile.runOn options (Token.scan source)
    (∃ σ, Stage.Leads .outside .initial σ run.2.table) ∧
    (∀ s, Production.AtDeclaration c start s ∨ Production.AtMethod c start s →
      Stage.Leads .outside .initial .program s.table) ∧
    (∀ σ t, Stage.Leads .outside .initial σ t → t.Ordered) ∧
    (∀ s h s₁, Production.AtMethod c start s → Production.Runs c Production.methodHead s h s₁ →
      Stage.Leads .outside .initial (.body h.id) s₁.table ∧
      (∃ ids, Production.Published c h ids s₁) ∧
      Production.Follows c (.body h.id) s₁ (Production.methodRest h) fun _ σ _ => σ = .program) ∧
    (∀ s, Production.Follows c .program s Production.methodTurn fun _ σ _ => σ = .program) ∧
    (∀ σ, Production.Stays c σ Production.block ∧ Production.Stays c σ Production.expression) := by
  intro c start run
  refine ⟨?_, fun s hs => hs.elim (·.leads rfl) (·.leads rfl),
    fun σ t h => (h.upholds .initial).ordered, fun s h s₁ hat hrun => ⟨?_, ?_, ?_⟩,
    fun s => Production.follows_methodTurn, fun σ => ⟨?_, ?_⟩⟩
  · obtain ⟨σ, hleads, -⟩ := Production.follows_sourceFile (c := c) (s := start)
    exact ⟨σ, hleads⟩
  · obtain ⟨_, hleads, rfl, -⟩ := Production.follows_methodHead.leads hrun
    exact (hat.leads rfl).trans hleads
  · exact Production.published rfl hat hrun
  · exact Production.follows_methodRest
  · exact Production.Stays.visitsBlocks.block
  · exact Production.Stays.visitsBlocks.expression

end MicroJava
