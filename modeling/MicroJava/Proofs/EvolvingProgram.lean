import MicroJava.Proofs.Evolving
import MicroJava.Proofs.Progress
import MicroJava.Proofs.SafeProgram

/-!
# No access is out of bounds

The declarations of a program change its table in steps, with handles of that table only, and leave the
scopes open that were open in front of them. So a compilation, whatever its text, never looks for an
entry, a type or a label that is not there, and no step changes a predeclared entry
(`compile_inBounds`). In front of every declaration and method the names of the program are declared in
the scope next to the outermost one, and behind the program only the outermost one is open.
-/

namespace MicroJava

namespace Production

variable {c : Setting} {s : Session}

/-! ### Declarations -/

/-- A name that is declared stands for a new entry, or for none. -/
theorem evolves_declare (hs : s.table.Reachable) {category : Category} {name : String}
    {ty : TypeId} (hty : ty.IsKnown s.table) :
    Evolves c s (declare category name ty) fun id t =>
      (id.IsOwn ∧ id.IsKnown t) ∧ t.level = s.table.level := by
  by_cases hname : name = ""
  · exact .of_runs (runs_declare.2 (.inl ⟨hname, rfl, rfl⟩)) (.refl _)
      ⟨⟨.inl rfl, hs.closed.nonempty⟩, rfl⟩
  rcases hfind : s.table.current.find? name with _ | id
  · have hstep := SymbolTable.Step.declare category name hty
    have hdeclare : (s.table.declare category name ty).2 =
        (s.table.bind ⟨name, ty, s.table.meaningOf category⟩).2 := by
      simp [SymbolTable.declare, hfind]
    rw [hdeclare] at hstep
    refine .of_runs (runs_declare.2 (.inr (.inr ⟨hname, hfind, rfl, rfl⟩))) (.step hstep)
      ⟨⟨.inr hs.predeclared.size_le, ?_⟩, SymbolTable.level_bind _ _⟩
    simp [EntryId.IsKnown]
  · exact .of_runs (runs_declare.2 (.inr (.inl ⟨hname, by simp [hfind], rfl, rfl⟩))) (.refl _)
      ⟨⟨.inl rfl, hs.closed.nonempty⟩, rfl⟩

theorem evolves_updateEntry {id : EntryId} {f : Entry → Entry} (hown : id.IsOwn)
    (hid : id.IsKnown s.table) (hf : ∀ e, e.Closed s.table → (f e).Closed s.table) :
    Evolves c s (updateEntry id f) fun _ t => t.level = s.table.level :=
  .of_runs (a := ()) (runs_updateEntry.2 rfl) (.step (.update hown hid hf)) (by simp [SymbolTable.level])

theorem evolves_openScope :
    Evolves c s openScope fun _ t => t.level = s.table.level + 1 :=
  .of_runs (a := ()) (runs_openScope.2 rfl) (.step .openScope) rfl

/-- The entries of a scope that is closed are known. -/
theorem evolves_closeScope (hs : s.table.Reachable) : Evolves c s closeScope fun ids t =>
    (∀ id ∈ ids, id.IsKnown t) ∧ t.level = s.table.level - 1 :=
  .of_runs (runs_closeScope.2 ⟨rfl, rfl⟩) (.step .closeScope)
    ⟨hs.closed.closeScope.2, s.table.level_closeScope⟩

theorem evolves_constantValue {id : EntryId} {ty : TypeId} (hs : s.table.Reachable)
    (hown : id.IsOwn) (hid : id.IsKnown s.table) :
    Evolves c s (constantValue id ty) fun _ t => t.level = s.table.level := by
  refine (Evolving.peek hs).bind hs fun k s₁ hs₁ h₁ hl₁ => ?_
  split
  · refine (Evolving.reportIf hs₁).bind hs₁ fun _ s₂ hs₂ h₂ hl₂ => ?_
    refine (Evolving.literal hs₂).bind hs₂ fun v s₃ hs₃ h₃ hl₃ => ?_
    have hid₃ := ((h₁.trans h₂).trans h₃).grows.entry hid
    refine Evolves.mono (evolves_updateEntry hown hid₃ fun e he => ?_) fun _ _ _ hl => ?_
    · exact .of_method? he.type rfl
    · rw [hl, hl₃, hl₂, hl₁]
  · exact (Evolving.report hs₁).mono fun _ _ _ hl => hl.trans hl₁

theorem evolving_constantDeclaration : Evolving c constantDeclaration := by
  intro s hs
  refine (Evolving.advance hs).bind hs fun _ s₁ hs₁ _ hl₁ => ?_
  refine (Typing.type hs₁).bind hs₁ fun ty s₂ hs₂ _ ⟨hty, hl₂⟩ => ?_
  refine (Evolving.identifier hs₂).bind hs₂ fun name s₃ hs₃ h₃ hl₃ => ?_
  refine (evolves_declare hs₃ (h₃.grows.type hty)).bind hs₃
    fun id s₄ hs₄ _ ⟨⟨hown, hid⟩, hl₄⟩ => ?_
  refine (Evolving.expect hs₄).bind hs₄ fun _ s₅ hs₅ h₅ hl₅ => ?_
  refine (evolves_constantValue hs₅ hown (h₅.grows.entry hid)).bind hs₅ fun _ s₆ hs₆ _ hl₆ => ?_
  refine (Evolving.expect hs₆).mono fun _ _ _ hl => ?_
  rw [hl, hl₆, hl₅, hl₄, hl₃, hl₂, hl₁]

theorem evolves_variableName {ty : TypeId} (hs : s.table.Reachable) (hty : ty.IsKnown s.table) :
    Evolves c s (variableName ty) fun _ t => t.level = s.table.level := by
  refine (Evolving.identifier hs).bind hs fun name s₁ hs₁ h₁ hl₁ => ?_
  refine (evolves_declare hs₁ (h₁.grows.type hty)).bind hs₁ fun id s₂ hs₂ _ ⟨_, hl₂⟩ => ?_
  have hcount : Evolving c (countGlobal id) :=
    .bind .table fun _ => .ite (fun _ => .write) fun _ => .pure _
  refine Evolves.mono (Evolving.bind hcount (fun _ => .bind .check fun _ => .ite (fun _ =>
    .bind .advance fun _ => .pure _) fun _ => .pure _) hs₂) fun _ _ _ hl => ?_
  rw [hl, hl₂, hl₁]

theorem evolving_variableDeclaration : Evolving c variableDeclaration := by
  intro s hs
  refine (Typing.type hs).bind hs fun ty s₁ hs₁ _ ⟨hty, hl₁⟩ => ?_
  -- the type stays known from one name to the next
  have hturns : Evolves c s₁ (repeatWhile (variableName ty)) fun _ t => t.level = s₁.table.level := by
    refine .loop (I := fun t => ty.IsKnown t) (fun _ _ h => h.grows.type) (fun _ s₂ hs₂ hty₂ => ?_)
      hs₁ hty ()
    exact (evolves_variableName hs₂ hty₂).bind hs₂ fun _ s₃ _ _ hl₃ => .pure hl₃
  refine hturns.bind hs₁ fun _ s₂ hs₂ _ hl₂ => ?_
  refine (Evolving.expect hs₂).mono fun _ _ _ hl => ?_
  rw [hl, hl₂, hl₁]

theorem evolving_variableDeclarations : Evolving c variableDeclarations :=
  .repeatWhile <| .bind .check fun _ => .ite (fun _ => .bind evolving_variableDeclaration fun _ =>
    .pure _) fun _ => .pure _

/-- The fields of a class are attached to it behind the last of them. -/
theorem evolves_attach {ty : TypeId} (hs : s.table.Reachable) (hty : ty.IsKnown s.table) :
    Evolves c s (do
        let fields ← closeScope
        discard (descriptor ty)
        updateTable (·.setFields ty fields)
        expect .rightBrace)
      fun _ t => t.level = s.table.level - 1 := by
  refine (evolves_closeScope hs).bind hs fun fields s₁ hs₁ h₁ ⟨hfields, hl₁⟩ => ?_
  refine (Evolving.discard Evolving.descriptor hs₁).bind hs₁ fun _ s₂ hs₂ h₂ hl₂ => ?_
  refine Evolves.bind (Q := fun _ t => t.level = s₂.table.level) ?_ hs₂ fun _ s₃ hs₃ _ hl₃ => ?_
  · refine .of_runs (a := ()) (runs_updateTable.2 rfl) (.step (.setFields ?_ ?_)) rfl
    · exact (h₁.trans h₂).grows.type hty
    · exact fun id hid => h₂.grows.entry (hfields id hid)
  refine (Evolving.expect hs₃).mono fun _ _ _ hl => ?_
  rw [hl, hl₃, hl₂, hl₁]

theorem evolving_classDeclaration : Evolving c classDeclaration := by
  intro s hs
  refine (Evolving.advance hs).bind hs fun _ s₁ hs₁ _ hl₁ => ?_
  refine (Evolving.identifier hs₁).bind hs₁ fun name s₂ hs₂ _ hl₂ => ?_
  refine Evolves.bind (Q := fun ty t => ty.IsKnown t ∧ t.level = s₂.table.level) ?_ hs₂
    fun ty s₃ hs₃ _ ⟨hty, hl₃⟩ => ?_
  · exact .of_runs (runs_modifyGet.2 ⟨rfl, rfl⟩) (.step .newClass) ⟨hs₂.closed.newClass.2, rfl⟩
  have hdeclare : Evolves c s₃ (discard (declare .typeName name ty))
      fun _ t => t.level = s₃.table.level :=
    (evolves_declare hs₃ hty).bind hs₃ fun _ _ _ _ h => .pure h.2
  refine hdeclare.bind hs₃ fun _ s₄ hs₄ h₄ hl₄ => ?_
  refine (Evolving.expect hs₄).bind hs₄ fun _ s₅ hs₅ h₅ hl₅ => ?_
  refine evolves_openScope.bind hs₅ fun _ s₆ hs₆ h₆ hl₆ => ?_
  refine (evolving_variableDeclarations hs₆).bind hs₆ fun _ s₇ hs₇ h₇ hl₇ => .read ?_
  refine (Evolving.table hs₇).bind hs₇ fun _ s₈ hs₈ h₈ hl₈ => ?_
  refine (Evolving.reportIf hs₈).bind hs₈ fun _ s₉ hs₉ h₉ hl₉ => ?_
  have hty₉ := (h₄.trans (h₅.trans (h₆.trans (h₇.trans (h₈.trans h₉))))).grows.type hty
  refine (evolves_attach hs₉ hty₉).mono fun _ _ _ hl => ?_
  rw [hl, hl₉, hl₈, hl₇, hl₆, hl₅, hl₄, hl₃, hl₂, hl₁, Nat.add_sub_cancel]

/-! ### Methods -/

/-- What is known of a method may change, as long as its locals are known. -/
theorem evolves_updateMethod {id : EntryId} {f : Method → Method} (hown : id.IsOwn)
    (hid : id.IsKnown s.table)
    (hf : ∀ m : Method, (∀ id ∈ m.locals, id.IsKnown s.table) →
      ∀ id ∈ (f m).locals, id.IsKnown s.table) :
    Evolves c s (updateMethod id f) fun _ t => t.level = s.table.level := by
  refine evolves_updateEntry hown hid ?_
  rintro ⟨name, ty, meaning⟩ he
  cases meaning with
  | method m =>
    refine ⟨he.type, fun m' hm' => ?_⟩
    obtain rfl := Option.some.inj hm'
    exact hf m (he.locals m rfl)
  | _ => exact he

theorem evolving_setReturnType {ty : TypeId} : Evolving c (setReturnType ty) := .still fun _ => rfl

theorem evolving_parameter : Evolving c (parameter ()) := by
  intro s hs
  refine (Typing.type hs).bind hs fun ty s₁ hs₁ h₁ ⟨hty, hl₁⟩ => ?_
  refine (Evolving.identifier hs₁).bind hs₁ fun name s₂ hs₂ h₂ hl₂ => ?_
  refine (evolves_declare hs₂ (h₂.grows.type hty)).bind hs₂
    fun id s₃ hs₃ h₃ ⟨⟨hown, hid⟩, hl₃⟩ => ?_
  refine (Evolving.check hs₃).bind hs₃ fun _ s₄ hs₄ h₄ hl₄ => .ite (fun _ => ?_) fun _ => ?_
  · refine (Evolving.advance hs₄).bind hs₄ fun _ s₅ hs₅ h₅ hl₅ => ?_
    have hty₅ := (h₂.trans (h₃.trans (h₄.trans h₅))).grows.type hty
    refine (Typing.arrayOf hs₅ hty₅).bind hs₅ fun array s₆ hs₆ h₆ ⟨harray, hl₆⟩ => ?_
    have hid₆ := (h₄.trans (h₅.trans h₆)).grows.entry hid
    refine Evolves.bind (evolves_updateEntry hown hid₆ fun e he => ?_) hs₆
      fun _ s₇ _ _ hl₇ => .pure ?_
    · exact ⟨harray, he.locals⟩
    · rw [hl₇, hl₆, hl₅, hl₄, hl₃, hl₂, hl₁]
  · refine Evolves.mono (Evolving.bind .check (fun _ => .ite (fun _ => .bind .advance fun _ =>
      .pure _) fun _ => .pure _) hs₄) fun _ _ _ hl => ?_
    rw [hl, hl₄, hl₃, hl₂, hl₁]

theorem evolving_parameters : Evolving c parameters :=
  .bind .check fun _ => .ite (fun _ => .loop (fun _ => evolving_parameter) ()) fun _ => .pure _

theorem evolves_header {id : EntryId} (hs : s.table.Reachable) (hown : id.IsOwn)
    (hid : id.IsKnown s.table) :
    Evolves c s (header id) fun _ t => t.level = s.table.level := by
  refine (Evolving.expect hs).bind hs fun _ s₁ hs₁ h₁ hl₁ => ?_
  refine (evolving_parameters hs₁).bind hs₁ fun variadic s₂ hs₂ h₂ hl₂ => ?_
  refine (Evolving.expect hs₂).bind hs₂ fun _ s₃ hs₃ h₃ hl₃ => ?_
  have hid₃ := (h₁.trans (h₂.trans h₃)).grows.entry hid
  refine Evolves.bind (Q := fun t t' => t = s₃.table ∧ t' = s₃.table) ?_ hs₃ ?_
  · exact .of_runs (runs_table.2 ⟨rfl, rfl⟩) (.refl _) ⟨rfl, rfl⟩
  rintro _ s₄ hs₄ - ⟨rfl, ht⟩
  refine Evolves.bind (evolves_updateMethod hown (ht ▸ hid₃) fun m _ id' hid' => ?_) hs₄
    fun _ s₅ _ _ hl₅ => .pure ?_
  · rw [ht]
    exact hs₃.closed.current.locals id' (by simpa using hid')
  · rw [hl₅, ht, hl₃, hl₂, hl₁]

theorem evolves_beginning {id : EntryId} {isEntry : Bool} {parameters size : Nat}
    (hs : s.table.Reachable) (hown : id.IsOwn) (hid : id.IsKnown s.table) :
    Evolves c s (beginning id isEntry parameters size) fun _ t => t.level = s.table.level := by
  refine (Evolving.write hs).bind hs fun address s₁ hs₁ h₁ hl₁ => ?_
  refine Evolves.bind (evolves_updateMethod hown (h₁.grows.entry hid) fun m hm => hm) hs₁
    fun _ s₂ hs₂ _ hl₂ => ?_
  refine Evolves.mono (Evolving.bind .write (fun _ => .write) hs₂) fun _ _ _ hl => ?_
  rw [hl, hl₂, hl₁]

theorem evolving_ending {ty : TypeId} : Evolving c (ending ty) :=
  .ite (fun _ => .bind .emit fun _ => .emit) fun _ => .emit

theorem evolves_methodBody {id : EntryId} {isEntry : Bool} {ty : TypeId} {parameters : Nat}
    (hs : s.table.Reachable) (hown : id.IsOwn) (hid : id.IsKnown s.table) :
    Evolves c s (methodBody id isEntry ty parameters) fun _ t => t.level = s.table.level := by
  refine (evolving_variableDeclarations hs).bind hs fun _ s₁ hs₁ h₁ hl₁ => ?_
  refine (Evolving.table hs₁).bind hs₁ fun _ s₂ hs₂ h₂ hl₂ => .read ?_
  refine (Evolving.reportIf hs₂).bind hs₂ fun _ s₃ hs₃ h₃ hl₃ => ?_
  refine (evolves_beginning hs₃ hown ((h₁.trans (h₂.trans h₃)).grows.entry hid)).bind hs₃
    fun _ s₄ hs₄ _ hl₄ => ?_
  refine (Evolving.block hs₄).bind hs₄ fun _ s₅ hs₅ _ hl₅ => ?_
  refine (evolving_ending hs₅).mono fun _ _ _ hl => ?_
  rw [hl, hl₅, hl₄, hl₃, hl₂, hl₁]

/-- What is known of a method behind its header. -/
structure Header where
  type : TypeId
  name : String
  /-- The entry of the method, or of undeclared names if it could not be declared. -/
  id : EntryId
  /-- The number of parameters. -/
  parameters : Nat

/-- A method up to its variables. -/
def methodHead : Production Header := do
  let type ← resultType
  let name ← identifier
  let id ← declare .method name type
  setReturnType type
  openScope
  let parameters ← header id
  return { type, name, id, parameters }

/-- A method from its variables on. -/
def methodRest (h : Header) : Production Unit := do
  let isEntry : Bool := h.id ≠ .none ∧ h.name = (← read).options.entryName
  reportIf (isEntry ∧ 0 < h.parameters) .entryHasParameters
  reportIf (isEntry ∧ h.type ≠ .none) .entryNotVoid
  methodBody h.id isEntry h.type h.parameters
  let locals ← closeScope
  updateMethod h.id fun m => { m with locals }
  setReturnType .none

theorem methodDeclaration_eq : methodDeclaration = methodHead >>= methodRest := by
  simp [methodDeclaration, methodHead, methodRest]

theorem evolves_methodHead (hs : s.table.Reachable) : Evolves c s methodHead fun h t =>
    (h.id.IsOwn ∧ h.id.IsKnown t) ∧ t.level = s.table.level + 1 := by
  refine (Typing.resultType hs).bind hs fun ty s₁ hs₁ h₁ ⟨hty, hl₁⟩ => ?_
  refine (Evolving.identifier hs₁).bind hs₁ fun name s₂ hs₂ h₂ hl₂ => ?_
  refine (evolves_declare hs₂ (h₂.grows.type hty)).bind hs₂
    fun id s₃ hs₃ h₃ ⟨⟨hown, hid⟩, hl₃⟩ => ?_
  refine (evolving_setReturnType hs₃).bind hs₃ fun _ s₄ hs₄ h₄ hl₄ => ?_
  refine evolves_openScope.bind hs₄ fun _ s₅ hs₅ h₅ hl₅ => ?_
  have hid₅ := (h₄.trans h₅).grows.entry hid
  refine (evolves_header hs₅ hown hid₅).bind hs₅ fun count s₆ _ h₆ hl₆ =>
    .pure ⟨⟨hown, h₆.grows.entry hid₅⟩, ?_⟩
  rw [hl₆, hl₅, hl₄, hl₃, hl₂, hl₁]

theorem evolves_methodRest {h : Header} (hs : s.table.Reachable) (hown : h.id.IsOwn)
    (hid : h.id.IsKnown s.table) :
    Evolves c s (methodRest h) fun _ t => t.level = s.table.level - 1 := by
  refine .read ?_
  refine (Evolving.reportIf hs).bind hs fun _ s₁ hs₁ h₁ hl₁ => ?_
  refine (Evolving.reportIf hs₁).bind hs₁ fun _ s₂ hs₂ h₂ hl₂ => ?_
  have hid₂ := (h₁.trans h₂).grows.entry hid
  refine (evolves_methodBody hs₂ hown hid₂).bind hs₂ fun _ s₃ hs₃ h₃ hl₃ => ?_
  refine (evolves_closeScope hs₃).bind hs₃ fun locals s₄ hs₄ h₄ ⟨hlocals, hl₄⟩ => ?_
  have hid₄ := (h₃.trans h₄).grows.entry hid₂
  refine Evolves.bind (evolves_updateMethod hown hid₄ fun _ _ => hlocals) hs₄
    fun _ s₅ hs₅ _ hl₅ => ?_
  refine (evolving_setReturnType hs₅).mono fun _ _ _ hl => ?_
  rw [hl, hl₅, hl₄, hl₃, hl₂, hl₁]

theorem evolving_methodDeclaration : Evolving c methodDeclaration := by
  intro s hs
  rw [methodDeclaration_eq]
  refine (evolves_methodHead hs).bind hs fun h s₁ hs₁ _ ⟨⟨hown, hid⟩, hl₁⟩ => ?_
  refine (evolves_methodRest hs₁ hown hid).mono fun _ _ _ hl => ?_
  rw [hl, hl₁, Nat.add_sub_cancel]

/-! ### Programs -/

/-- A program up to its declarations. -/
def opening : Production EntryId := do
  expect .programWord
  let name ← identifier
  let id ← declare .program name .none
  openScope
  return id

/-- What stands between the declarations of a program and its methods. -/
def middle : Production Unit := do
  reportIf ((← read).options.maxGlobals < (← table).current.locals.size) .tooManyGlobals
  expect .leftBrace

/-- A program from its last method on. -/
def closing (id : EntryId) : Production Unit := do
  reportIf (← get).assembly.entry.isNone .noEntryMethod [(← read).options.entryName]
  expect .rightBrace
  let members ← closeScope
  updateEntry id fun e => { e with meaning := .program members }

theorem declarations_eq : declarations = repeatWhile declarationTurn := rfl

theorem methods_eq : methods = repeatWhile methodTurn := rfl

theorem program_parts : program = (do
    let id ← opening
    declarations
    middle
    methods
    closing id) := by
  simp [program, opening, middle, closing]

theorem evolving_declarationTurn : Evolving c declarationTurn := by
  refine .bind .peek fun k => ?_
  split
  · exact .bind evolving_constantDeclaration fun _ => .pure _
  · exact .bind evolving_classDeclaration fun _ => .pure _
  · exact .bind evolving_variableDeclaration fun _ => .pure _
  · exact .pure _
  · exact .pure _
  · exact .bind Evolving.visits.recoverDeclaration fun _ => .pure _

theorem evolving_methodTurn : Evolving c methodTurn := by
  refine .bind .peek fun k => ?_
  split
  · exact .bind evolving_methodDeclaration fun _ => .pure _
  · exact .bind evolving_methodDeclaration fun _ => .pure _
  · exact .pure _
  · exact .pure _
  · exact .bind Evolving.visits.recoverMethod fun _ => .pure _

theorem evolving_middle : Evolving c middle :=
  .read (.bind .table fun _ => .bind .reportIf fun _ => .expect)

theorem evolves_opening (hs : s.table.Reachable) : Evolves c s opening fun id t =>
    (id.IsOwn ∧ id.IsKnown t) ∧ t.level = s.table.level + 1 := by
  refine (Evolving.expect hs).bind hs fun _ s₁ hs₁ _ hl₁ => ?_
  refine (Evolving.identifier hs₁).bind hs₁ fun name s₂ hs₂ _ hl₂ => ?_
  refine (evolves_declare hs₂ hs₂.closed.known_none).bind hs₂
    fun id s₃ hs₃ _ ⟨⟨hown, hid⟩, hl₃⟩ => ?_
  refine evolves_openScope.bind hs₃ fun _ s₄ _ h₄ hl₄ => .pure ⟨⟨hown, h₄.grows.entry hid⟩, ?_⟩
  rw [hl₄, hl₃, hl₂, hl₁]

theorem evolves_closing {id : EntryId} (hs : s.table.Reachable) (hown : id.IsOwn)
    (hid : id.IsKnown s.table) :
    Evolves c s (closing id) fun _ t => t.level = s.table.level - 1 := by
  refine (Evolving.get hs).bind hs fun _ s₁ hs₁ h₁ hl₁ => .read ?_
  refine (Evolving.reportIf hs₁).bind hs₁ fun _ s₂ hs₂ h₂ hl₂ => ?_
  refine (Evolving.expect hs₂).bind hs₂ fun _ s₃ hs₃ h₃ hl₃ => ?_
  refine (evolves_closeScope hs₃).bind hs₃ fun members s₄ hs₄ h₄ ⟨_, hl₄⟩ => ?_
  have hid₄ := (h₁.trans (h₂.trans (h₃.trans h₄))).grows.entry hid
  refine Evolves.mono (evolves_updateEntry hown hid₄ fun e he => ?_) fun _ _ _ hl => ?_
  · exact .of_method? he.type rfl
  · rw [hl, hl₄, hl₃, hl₂, hl₁]

theorem evolving_program : Evolving c program := by
  intro s hs
  rw [program_parts]
  refine (evolves_opening hs).bind hs fun id s₁ hs₁ _ ⟨⟨hown, hid⟩, hl₁⟩ => ?_
  refine (Evolving.repeatWhile evolving_declarationTurn hs₁).bind hs₁ fun _ s₂ hs₂ h₂ hl₂ => ?_
  refine (evolving_middle hs₂).bind hs₂ fun _ s₃ hs₃ h₃ hl₃ => ?_
  refine (Evolving.repeatWhile evolving_methodTurn hs₃).bind hs₃ fun _ s₄ hs₄ h₄ hl₄ => ?_
  have hid₄ := (h₂.trans (h₃.trans h₄)).grows.entry hid
  refine (evolves_closing hs₄ hown hid₄).mono fun _ _ _ hl => ?_
  rw [hl, hl₄, hl₃, hl₂, hl₁, Nat.add_sub_cancel]

theorem evolving_sourceFile : Evolving c sourceFile :=
  .bind .advance fun _ => .bind evolving_program fun _ => .expect

/-- The sessions of a compilation in front of a declaration of the program, or behind the last one. -/
inductive AtDeclaration (c : Setting) (start : Session) : Session → Prop
  | first {id : EntryId} {s : Session} : Runs c opening start.advance id s →
    AtDeclaration c start s
  | next {s s' : Session} : AtDeclaration c start s → Runs c declarationTurn s true s' →
    AtDeclaration c start s'

/-- The sessions of a compilation in front of a method, or behind the last one. -/
inductive AtMethod (c : Setting) (start : Session) : Session → Prop
  | first {s s₁ s' : Session} : AtDeclaration c start s → Runs c declarationTurn s false s₁ →
    Runs c middle s₁ () s' → AtMethod c start s'
  | next {s s' : Session} : AtMethod c start s → Runs c methodTurn s true s' → AtMethod c start s'

/-- A run of an evolving production leads to a table that comes about in steps too, with the same
scopes open. -/
theorem Evolving.of_runs {α : Type} {m : Production α} {a : α} {s' : Session} (h : Evolving c m)
    (hs : s.table.Reachable) (hrun : Runs c m s a s') :
    s'.table.Reachable ∧ s'.table.level = s.table.level := by
  have hm := h hs
  have ht := hm.table
  rw [show m.outcome c s = (.ok a, s') from hrun] at ht
  exact ⟨hs.evolves ht, hm.result a s' hrun⟩

theorem AtDeclaration.reachable {start : Session} (h₀ : start.table = .initial)
    (h : AtDeclaration c start s) :
    s.table.Reachable ∧ s.table.level = SymbolTable.programLevel := by
  induction h with
  | @first id s hrun =>
    have hs : start.advance.table.Reachable := by
      rw [show start.advance.table = .initial from h₀]
      exact .refl _
    have hm := evolves_opening (c := c) hs
    have ht := hm.table
    rw [show opening.outcome c start.advance = (.ok id, s) from hrun] at ht
    refine ⟨hs.evolves ht, (hm.result id s hrun).2.trans ?_⟩
    rw [show start.advance.table = .initial from h₀]
    rfl
  | next _ hrun ih =>
    obtain ⟨hs, hl⟩ := evolving_declarationTurn.of_runs ih.1 hrun
    exact ⟨hs, hl.trans ih.2⟩

theorem AtMethod.reachable {start : Session} (h₀ : start.table = .initial)
    (h : AtMethod c start s) :
    s.table.Reachable ∧ s.table.level = SymbolTable.programLevel := by
  induction h with
  | first hat hrun hmiddle =>
    obtain ⟨hs, hl⟩ := hat.reachable h₀
    obtain ⟨hs₁, hl₁⟩ := evolving_declarationTurn.of_runs hs hrun
    obtain ⟨hs₂, hl₂⟩ := evolving_middle.of_runs hs₁ hmiddle
    exact ⟨hs₂, (hl₂.trans hl₁).trans hl⟩
  | next _ hrun ih =>
    obtain ⟨hs, hl⟩ := evolving_methodTurn.of_runs ih.1 hrun
    exact ⟨hs, hl.trans ih.2⟩

/-- What is looked up in one go is there, handle by handle. -/
structure LooksUp (c : Setting) : Prop where
  fits : ∀ {s s' : Session} {x : Operand} {target : TypeId} {b : Bool}, s.table.Reachable →
    Runs c (fits x target) s b s' → x.fits? s.table.types target = some b
  comparable : ∀ {s s' : Session} {a b : TypeId} {r : Bool}, s.table.Reachable →
    Runs c (comparable a b) s r s' → s.table.types.comparable? a b = some r
  field : ∀ {s s' : Session} {x y : Operand}, s.table.Reachable → Runs c (fieldOf x) s y s' →
    ∀ name, s.table.findField? name x.type = some (s.table.findField name x.type)

theorem looksUp (c : Setting) : LooksUp c where
  fits {s s' x target b} hs hrun := by
    simp only [fits, runs_bind, runs_discard, runs_descriptor, runs_table] at hrun
    obtain ⟨_, _, ⟨d, hd, rfl⟩, _, _, ⟨e, he, rfl⟩, _, _, ⟨rfl, rfl⟩, hrun⟩ := hrun
    obtain ⟨rfl, rfl⟩ := runs_pure.1 hrun
    exact hs.closed.inBounds.fits x target (SymbolTable.known_of_descriptor? hd)
      (SymbolTable.known_of_descriptor? he)
  comparable {s s' a b r} hs hrun := by
    simp only [comparable, runs_bind, runs_discard, runs_descriptor, runs_table] at hrun
    obtain ⟨_, _, ⟨d, hd, rfl⟩, _, _, ⟨e, he, rfl⟩, _, _, ⟨rfl, rfl⟩, hrun⟩ := hrun
    obtain ⟨rfl, rfl⟩ := runs_pure.1 hrun
    exact hs.closed.comparable? (SymbolTable.known_of_descriptor? hd)
      (SymbolTable.known_of_descriptor? he)
  field {s s' x y} hs hrun name := by
    obtain ⟨d, _, hd, -⟩ := runs_bind.1 hrun
    exact hs.closed.findField? name (SymbolTable.known_of_descriptor? (runs_descriptor.1 hd).1)

end Production

/-- The only fault at which a compilation can stop is a jump that is too far. -/
theorem fault_of_runOn (source : String) (options : Options) {f : Fault} {s : Session}
    (h : Production.sourceFile.runOn options (Token.scan source) = (.error f, s)) :
    ∃ position d, f = .jumpOutOfRange position d := by
  have hrun : Production.sourceFile.outcome (.ofStream options (Token.scan source))
      (.start (Token.scan source) options) = (.error f, s) := h
  have hhealthy : (Session.start (Token.scan source) options).advance.Healthy
      (.ofStream options (Token.scan source)) ∅ :=
    .start (Session.Named.start source options).last options
  have hsafe := Production.Safe.sourceFile hhealthy
  rw [hrun] at hsafe
  obtain ⟨position, d, rfl, -⟩ := hsafe
  exact ⟨position, d, rfl⟩

/-- A compilation never looks for an entry, a type or a label that is not there: the only fault at which
it can stop is a jump that is too far. Its table comes about in steps that are given handles of the table
they change, whether the text has mistakes or not, and in every table that does so all lookups stay in
the table, an element type is older than its arrays, and the predeclared entries and the one of
undeclared names are as they were at first. Behind every declaration of the program and every method
the program's own scope is the innermost one again, and behind the program the outermost one is, which
is always open. -/
theorem compile_inBounds (source : String) (options : Options) :
    let c := Setting.ofStream options (Token.scan source)
    let start := Session.start (Token.scan source) options
    let run := Production.sourceFile.runOn options (Token.scan source)
    (∀ f, run.1 = .error f → ∃ position d, f = .jumpOutOfRange position d) ∧
    (run.2.table.Reachable ∧ ∀ t : SymbolTable, t.Reachable → t.InBounds ∧ t.Predeclared) ∧
    Production.LooksUp c ∧
    (∀ s, Production.AtDeclaration c start s ∨ Production.AtMethod c start s →
      s.table.Reachable ∧ s.table.level = SymbolTable.programLevel) ∧
    (run.1 = .ok () → run.2.table.level = 0) := by
  intro c start run
  have hevolves := Production.evolving_sourceFile (c := c) (s := start) (.refl _)
  refine ⟨fun f hf => ?_, ⟨hevolves.table, fun t ht => ⟨ht.closed.inBounds, ht.predeclared⟩⟩,
    Production.looksUp c, fun s hs => ?_, fun hok => ?_⟩
  · exact fault_of_runOn source options (Prod.ext hf rfl : run = (.error f, run.2))
  · exact hs.elim (·.reachable rfl) (·.reachable rfl)
  · exact hevolves.result () run.2 (Prod.ext hok rfl)

end MicroJava
