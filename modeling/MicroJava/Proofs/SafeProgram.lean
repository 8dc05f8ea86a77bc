import MicroJava.Proofs.SafeStatement
import MicroJava.Proofs.Segment

/-!
# Compiling never goes wrong

A whole text leaves no label undefined (`Safe.program`), so the only fault of a compilation is a jump
or call that is too far, and then there is more code than it can cross
(`compile_ok_or_overruns`).
-/

namespace MicroJava

namespace Production.Safe

variable {c : Setting} {L : Set Label} {s : Session}

section

variable (hs : s.Healthy c L)

include hs

/-! ### Declarations -/

theorem constantValue {id : EntryId} {ty : TypeId} :
    Safe c s (constantValue id ty) (fun _ => L) fun _ _ => True := by
  refine .peek ?_
  split
  · refine (reportIf hs).bind fun _ s₁ hs₁ _ _ => (literal hs₁).bind fun v s₂ hs₂ _ _ => ?_
    refine mono (updateEntry hs₂ (fun e _ he => .of_method? he.type rfl) ?_) fun _ _ _ _ => trivial
    exact fun e m _ hm => by simp [Entry.method?] at hm
  · exact (report hs).mono fun _ _ _ _ => trivial

theorem constantDeclaration (hk : s.current.kind ≠ .endOfFile) :
    Safe c s constantDeclaration (fun _ => L) fun _ s' => s'.left < s.left := by
  refine (advance hs).bind fun _ s₁ hs₁ _ ⟨_, hleft⟩ => ?_
  refine mono (Q := fun _ _ => True) ?_ fun _ s' hp _ => Nat.lt_of_le_of_lt hp.left (hleft hk)
  refine (type hs₁).bind fun ty s₂ hs₂ _ ⟨hty, _⟩ => (identifier hs₂).bind fun name s₃ hs₃ hp₃ _ => ?_
  refine (declare hs₃ (hp₃.table.type hty)).bind fun id s₄ hs₄ _ _ => ?_
  refine (expect hs₄).bind fun _ s₅ hs₅ _ _ => (constantValue hs₅).bind fun _ s₆ hs₆ _ _ => ?_
  exact (expect hs₆).mono fun _ _ _ _ => trivial

theorem countGlobal {id : EntryId} : Safe c s (countGlobal id) (fun _ => L) fun _ _ => True := by
  refine .table (.ite (fun _ => ?_) fun _ => .pure hs trivial)
  exact writePlain hs (fun _ => ⟨rfl, Nat.le_refl _⟩) fun _ => ⟨(), rfl⟩

theorem variableName {ty : TypeId} (hty : ty.IsKnown s.table) :
    Safe c s (variableName ty) (fun _ => L) fun more s' => more = true → s'.left < s.left := by
  refine (identifier hs).bind fun name s₁ hs₁ hp₁ _ => ?_
  refine (declare hs₁ (hp₁.table.type hty)).bind fun id s₂ hs₂ hp₂ _ => ?_
  refine (countGlobal hs₂).bind fun _ s₃ hs₃ hp₃ _ => .check (fun hk => ?_) fun _ => ?_
  · refine (advance hs₃).bind fun _ s₄ hs₄ _ ⟨_, hleft⟩ => .pure hs₄ fun _ => ?_
    exact Nat.lt_of_lt_of_le (hleft (by rw [hk]; decide)) ((hp₁.trans hp₂).trans hp₃).left
  · exact .pure hs₃ (by simp)

theorem variableDeclaration : Safe c s variableDeclaration (fun _ => L) fun _ s' =>
    s.current.kind = .identifier → s'.left < s.left := by
  refine (type hs).bind fun ty s₁ hs₁ _ ⟨hty, htake⟩ => ?_
  refine mono (Q := fun _ _ => True) ?_ fun _ s' hp _ hk => Nat.lt_of_le_of_lt hp.left (htake hk)
  refine (repeatWhile (fun s₂ hs₂ hp₂ => variableName hs₂ (hp₂.table.type hty)) hs₁).bind
    fun _ s₂ hs₂ _ _ => (expect hs₂).mono fun _ _ _ _ => trivial

theorem variableDeclarations : Safe c s variableDeclarations (fun _ => L) fun _ _ => True := by
  refine repeatWhile (fun s₁ hs₁ _ => .check (fun hk => ?_) fun _ => .pure hs₁ (by simp)) hs
  exact (variableDeclaration hs₁).bind fun _ s₂ hs₂ _ h => .pure hs₂ fun _ => h hk

theorem newClass : Safe c s (modifyGet (·.withTable (·.newClass))) (fun _ => L) fun ty s' =>
    ty.IsKnown s'.table :=
  of_runs (runs_modifyGet.2 ⟨rfl, rfl⟩) (hs.withTypes hs.table.newClass.1 .newClass)
    hs.table.newClass.2

theorem setFields {ty : TypeId} {fields : List EntryId} (hf : ∀ id ∈ fields, id.IsKnown s.table) :
    Safe c s (updateTable (·.setFields ty fields)) (fun _ => L) fun _ _ => True :=
  of_runs (a := ()) (runs_updateTable.2 rfl)
    (hs.withTypes (hs.table.setFields ty hf) (.setFields ty fields)) trivial

theorem classDeclaration (hk : s.current.kind ≠ .endOfFile) :
    Safe c s classDeclaration (fun _ => L) fun _ s' => s'.left < s.left := by
  refine (advance hs).bind fun _ s₁ hs₁ _ ⟨_, hleft⟩ => ?_
  refine mono (Q := fun _ _ => True) ?_ fun _ s' hp _ => Nat.lt_of_le_of_lt hp.left (hleft hk)
  refine (identifier hs₁).bind fun name s₂ hs₂ _ _ => (newClass hs₂).bind fun ty s₃ hs₃ _ hty => ?_
  refine (discard (declare hs₃ hty)).bind fun _ s₄ hs₄ hp₄ _ => ?_
  refine (expect hs₄).bind fun _ s₅ hs₅ hp₅ _ => (openScope hs₅).bind fun _ s₆ hs₆ hp₆ _ => ?_
  refine (variableDeclarations hs₆).bind fun _ s₇ hs₇ hp₇ _ => .read (.table ?_)
  refine (reportIf hs₇).bind fun _ s₈ hs₈ hp₈ _ => ?_
  refine (closeScope hs₈).bind fun fields s₉ hs₉ hp₉ hfields => ?_
  have hty₉ := ((hp₄.trans hp₅).trans ((hp₆.trans hp₇).trans (hp₈.trans hp₉))).table.type hty
  refine (discard (descriptor hs₉ hty₉)).bind fun _ s₁₀ hs₁₀ _ ⟨_, heq, _⟩ => ?_
  subst heq
  refine (setFields hs₁₀ hfields).bind fun _ s₁₁ hs₁₁ _ _ => ?_
  exact (expect hs₁₁).mono fun _ _ _ _ => trivial

theorem atTypeName : Safe c s atTypeName (fun _ => L) fun _ s' => s' = s := by
  refine .get (.ite (fun _ => .pure hs rfl) fun _ => .table ?_)
  rcases hl : s.table.lookup? s.current.name with _ | id
  · exact .pure hs rfl
  · exact (entry hs (hs.table.lookup? hl)).bind fun e s₁ hs₁ _ h => .pure hs₁ h.1

theorem recoverDeclaration (hk : s.current.kind ≠ .endOfFile) :
    Safe c s recoverDeclaration (fun _ => L) fun _ s' => s'.left < s.left := by
  refine (report hs).bind fun _ s₁ hs₁ _ ⟨hleft₁, hcurrent⟩ => ?_
  refine (skipUntil hs₁ fun s₂ hs₂ => ?_).bind fun _ s₂ hs₂ hp₂ hleft => ?_
  · refine .checkAny (fun _ => .pure hs₂ ⟨rfl, by simp⟩) fun hstop => .get ?_
    have hne : s₂.current.kind ≠ .endOfFile := fun h => by
      rw [h] at hstop
      exact absurd hstop (by decide)
    refine .ite (fun _ => .pure hs₂ ⟨rfl, by simp⟩) fun _ => ?_
    exact (atTypeName hs₂).mono fun b s₃ _ heq => ⟨heq, fun _ => hne⟩
  · refine (resume hs₂).mono fun _ s₃ hp₃ _ => ?_
    rw [← hleft₁]
    exact Nat.lt_of_le_of_lt hp₃.left (hleft (hcurrent ▸ hk))

theorem recoverMethod (hk : s.current.kind ≠ .endOfFile) :
    Safe c s recoverMethod (fun _ => L) fun _ s' => s'.left < s.left := by
  refine (report hs).bind fun _ s₁ hs₁ _ ⟨hleft₁, hcurrent⟩ => ?_
  refine (skipUntil hs₁ fun s₂ hs₂ => stops hs₂ (by decide)).bind fun _ s₂ hs₂ hp₂ hleft => ?_
  refine (resume hs₂).mono fun _ s₃ hp₃ _ => ?_
  rw [← hleft₁]
  exact Nat.lt_of_le_of_lt hp₃.left (hleft (hcurrent ▸ hk))

theorem declarations : Safe c s declarations (fun _ => L) fun _ _ => True := by
  refine repeatWhile (fun s₁ hs₁ _ => .peek ?_) hs
  split
  · next hk =>
    exact (constantDeclaration hs₁ (by simp [hk])).bind fun _ s₂ hs₂ _ h => .pure hs₂ fun _ => h
  · next hk =>
    exact (classDeclaration hs₁ (by simp [hk])).bind fun _ s₂ hs₂ _ h => .pure hs₂ fun _ => h
  · next hk => exact (variableDeclaration hs₁).bind fun _ s₂ hs₂ _ h => .pure hs₂ fun _ => h hk
  · exact .pure hs₁ (by simp)
  · exact .pure hs₁ (by simp)
  · next _ _ _ _ hk =>
    exact (recoverDeclaration hs₁ hk).bind fun _ s₂ hs₂ _ h => .pure hs₂ fun _ => h

/-! ### Methods -/

/-- What is known of a method may change, as long as its locals are known and its address is in the
code. -/
theorem updateMethod {id : EntryId} {f : Method → Method}
    (hf : ∀ m, (∀ id ∈ m.locals, id.IsKnown s.table) → ∀ id ∈ (f m).locals, id.IsKnown s.table)
    (ha : ∀ m, m.address ≤ s.assembly.here → (f m).address ≤ s.assembly.here) :
    Safe c s (updateMethod id f) (fun _ => L) fun _ s' =>
      s' = { s with table := s.table.update id (·.updateMethod f) } := by
  have hmethod : ∀ (e : Entry) (m : Method), (e.updateMethod f).method? = some m →
      ∃ m', e.method? = some m' ∧ m = f m' := by
    rintro ⟨name, ty, meaning⟩ m hm
    cases meaning with
    | method m' => exact ⟨m', rfl, (Option.some.inj hm).symm⟩
    | _ => simp [Entry.updateMethod, Entry.method?] at hm
  refine updateEntry hs (fun e he hclosed => ⟨?_, fun m hm => ?_⟩) fun e m he hm => ?_
  · unfold Entry.updateMethod
    split
    · exact hclosed.type
    · exact hclosed.type
  · obtain ⟨m', hm', rfl⟩ := hmethod e m hm
    exact hf m' (hclosed.locals m' hm')
  · obtain ⟨m', hm', rfl⟩ := hmethod e m hm
    exact ha m' (hs.methods id e m' he hm')

theorem parameter : Safe c s (parameter ()) (fun _ => L) fun r s' =>
    r = .inl () → s'.left < s.left := by
  refine (type hs).bind fun ty s₁ hs₁ hp₁ ⟨hty, _⟩ => (identifier hs₁).bind fun name s₂ hs₂ hp₂ _ => ?_
  refine (declare hs₂ (hp₂.table.type hty)).bind fun id s₃ hs₃ hp₃ _ => .check (fun _ => ?_) fun _ => ?_
  · refine (advance hs₃).bind fun _ s₄ hs₄ hp₄ _ => ?_
    refine (arrayOf hs₄ (((hp₂.trans hp₃).trans hp₄).table.type hty)).bind
      fun array s₅ hs₅ _ ⟨harray, _⟩ => ?_
    refine bind (updateEntry hs₅ (fun e _ he => ⟨harray, he.locals⟩) ?_)
      fun _ s₆ hs₆ _ _ => .pure hs₆ (by simp)
    exact fun e m he hm => hs₅.methods id e m he hm
  · refine .check (fun hk => ?_) fun _ => .pure hs₃ (by simp)
    refine (advance hs₃).bind fun _ s₄ hs₄ _ ⟨_, hleft⟩ => .pure hs₄ fun _ => ?_
    exact Nat.lt_of_lt_of_le (hleft (by rw [hk]; decide)) ((hp₁.trans hp₂).trans hp₃).left

theorem parameters : Safe c s parameters (fun _ => L) fun _ _ => True := by
  refine .check (fun _ => ?_) fun _ => .pure hs trivial
  refine .loop (I := fun _ _ => True) (K := fun _ => L) (fun _ s₁ hs₁ _ _ => ?_) hs trivial
  have hL : (Sum.elim (fun _ => L) fun _ => L : Unit ⊕ Bool → Set Label) = fun _ => L := by
    funext r
    cases r <;> rfl
  rw [hL]
  refine (parameter hs₁).mono fun r s₂ _ h => ?_
  rcases r with ⟨⟩ | b
  · exact ⟨h rfl, trivial⟩
  · trivial

theorem resultType : Safe c s resultType (fun _ => L) fun ty s' =>
    ty.IsKnown s'.table ∧
      (s.current.kind = .identifier ∨ s.current.kind = .voidWord → s'.left < s.left) := by
  refine .check (fun hk => ?_) fun hk => ?_
  · refine (advance hs).bind fun _ s₁ hs₁ _ ⟨_, hleft⟩ => .pure hs₁ ⟨hs₁.table.known_none, fun _ => ?_⟩
    exact hleft (by rw [hk]; decide)
  · exact (type hs).mono fun ty s₁ _ h => ⟨h.1, fun h' => h.2 (h'.resolve_right hk)⟩

theorem setReturnType {ty : TypeId} (hty : ty.IsKnown s.table) :
    Safe c s (setReturnType ty) (fun _ => L) fun _ _ => True :=
  of_runs (a := ()) (runs_modify.2 rfl)
    ⟨⟨hs.last, hs.left, hs.table, hs.patchable, hs.undefined, hs.methods, hty⟩,
      ⟨Nat.le_refl _, .refl _, Nat.le_refl _, Nat.le_refl _⟩⟩ trivial

theorem header {id : EntryId} : Safe c s (header id) (fun _ => L) fun _ _ => True := by
  refine (expect hs).bind fun _ s₁ hs₁ _ _ => (parameters hs₁).bind fun variadic s₂ hs₂ _ _ => ?_
  refine (expect hs₂).bind fun _ s₃ hs₃ _ _ => .table ?_
  refine bind (updateMethod hs₃ (fun m _ id hid => ?_) fun m hm => hm)
    fun _ s₄ hs₄ _ _ => .pure hs₄ trivial
  exact hs₃.table.current.locals id (by simpa using hid)

theorem ending {ty : TypeId} : Safe c s (ending ty) (fun _ => L) fun _ _ => True :=
  .ite (fun _ => (emit hs).bind fun _ _ hs₁ _ _ => emit hs₁) fun _ => emit hs

theorem beginning {id : EntryId} {isEntry : Bool} {parameters size : Nat} :
    Safe c s (beginning id isEntry parameters size) (fun _ => L) fun _ _ => True := by
  refine bind (K := fun _ => L) (Q := fun address s' => s' = s ∧ address = s.assembly.here) ?_
    fun address s₁ hs₁ _ ⟨heq, haddress⟩ => ?_
  · exact of_runs (runs_write.2 ⟨s.assembly, Emission.succeeds_here.2 ⟨rfl, rfl⟩, rfl⟩)
      ⟨hs, .refl s⟩ ⟨rfl, rfl⟩
  subst heq haddress
  refine bind (updateMethod hs₁ (fun m hm => hm) fun m _ => Nat.le_refl _) fun _ s₂ hs₂ _ _ => ?_
  refine bind (writePlain hs₂ ?_ ?_) fun _ s₃ hs₃ _ _ =>
    writePlain hs₃ (Emission.plain_emit _ _) (Emission.total_emit _ _)
  · cases isEntry
    · exact Emission.plain_pure _
    · exact fun _ => ⟨rfl, Nat.le_refl _⟩
  · cases isEntry
    · exact Emission.total_pure _
    · exact fun _ => ⟨(), rfl⟩

theorem methodBody {id : EntryId} {isEntry : Bool} {ty : TypeId} {parameters : Nat} :
    Safe c s (methodBody id isEntry ty parameters) (fun _ => L) fun _ _ => True := by
  refine (variableDeclarations hs).bind fun _ s₁ hs₁ _ _ => .table (.read ?_)
  refine (reportIf hs₁).bind fun _ s₂ hs₂ _ _ => (beginning hs₂).bind fun _ s₃ hs₃ _ _ => ?_
  exact (block hs₃).bind fun _ s₄ hs₄ _ _ => ending hs₄

theorem methodDeclaration : Safe c s methodDeclaration (fun _ => L) fun _ s' =>
    s.current.kind = .identifier ∨ s.current.kind = .voidWord → s'.left < s.left := by
  refine (resultType hs).bind fun ty s₁ hs₁ _ ⟨hty, htake⟩ => ?_
  refine mono (Q := fun _ _ => True) ?_ fun _ s' hp _ hk => Nat.lt_of_le_of_lt hp.left (htake hk)
  refine (identifier hs₁).bind fun name s₂ hs₂ hp₂ _ => ?_
  refine (declare hs₂ (hp₂.table.type hty)).bind fun id s₃ hs₃ hp₃ _ => ?_
  refine (setReturnType hs₃ ((hp₂.trans hp₃).table.type hty)).bind fun _ s₄ hs₄ _ _ => ?_
  refine (openScope hs₄).bind fun _ s₅ hs₅ _ _ => (header hs₅).bind fun count s₆ hs₆ _ _ => .read ?_
  refine (reportIf hs₆).bind fun _ s₇ hs₇ _ _ => (reportIf hs₇).bind fun _ s₈ hs₈ _ _ => ?_
  refine (methodBody hs₈).bind fun _ s₉ hs₉ _ _ => ?_
  refine (closeScope hs₉).bind fun locals s₁₀ hs₁₀ _ hlocals => ?_
  refine bind (updateMethod hs₁₀ (fun m _ => hlocals) fun m hm => hm) fun _ s₁₁ hs₁₁ _ _ => ?_
  exact setReturnType hs₁₁ hs₁₁.table.known_none

theorem methods : Safe c s methods (fun _ => L) fun _ _ => True := by
  refine repeatWhile (fun s₁ hs₁ _ => .peek ?_) hs
  split
  · next hk => exact (methodDeclaration hs₁).bind fun _ s₂ hs₂ _ h => .pure hs₂ fun _ => h (.inl hk)
  · next hk => exact (methodDeclaration hs₁).bind fun _ s₂ hs₂ _ h => .pure hs₂ fun _ => h (.inr hk)
  · exact .pure hs₁ (by simp)
  · exact .pure hs₁ (by simp)
  · next _ _ _ hk =>
    exact (recoverMethod hs₁ hk).bind fun _ s₂ hs₂ _ h => .pure hs₂ fun _ => h

/-! ### Programs -/

theorem program : Safe c s program (fun _ => L) fun _ _ => True := by
  refine (expect hs).bind fun _ s₁ hs₁ _ _ => (identifier hs₁).bind fun name s₂ hs₂ _ _ => ?_
  refine (declare hs₂ hs₂.table.known_none).bind fun id s₃ hs₃ _ _ => ?_
  refine (openScope hs₃).bind fun _ s₄ hs₄ _ _ => (declarations hs₄).bind fun _ s₅ hs₅ _ _ => ?_
  refine .read (.table ?_)
  refine (reportIf hs₅).bind fun _ s₆ hs₆ _ _ => (expect hs₆).bind fun _ s₇ hs₇ _ _ => ?_
  refine (methods hs₇).bind fun _ s₈ hs₈ _ _ => .get (.read ?_)
  refine (reportIf hs₈).bind fun _ s₉ hs₉ _ _ => (expect hs₉).bind fun _ s₁₀ hs₁₀ _ _ => ?_
  refine (closeScope hs₁₀).bind fun members s₁₁ hs₁₁ _ _ => ?_
  refine mono (updateEntry hs₁₁ (fun e _ he => .of_method? he.type rfl) ?_) fun _ _ _ _ => trivial
  exact fun e m _ hm => by simp [Entry.method?] at hm

end

/-- The first token is taken before anything else is done. -/
theorem sourceFile (hs : s.advance.Healthy c L) :
    match Production.sourceFile.outcome c s with
    | (.ok (), s') => s'.assembly.undefined = L
    | (.error f, s') => s'.assembly.Overruns f := by
  let rest : Production Unit := do
    Production.program
    Production.expect .endOfFile
  have hsafe : Safe c s.advance rest (fun _ => L) fun _ _ => True :=
    (program hs).bind fun _ s₁ hs₁ _ _ => (expect hs₁).mono fun _ _ _ _ => trivial
  unfold Safe at hsafe
  have houtcome : Production.sourceFile.outcome c s = rest.outcome c s.advance := by
    rw [show Production.sourceFile = (Production.advance >>= fun _ => rest) from rfl, outcome_bind,
      show outcome Production.advance c s = (.ok (), s.advance) from runs_advance.2 rfl]
  rw [houtcome]
  rcases hr : rest.outcome c s.advance with ⟨f | ⟨⟩, s'⟩ <;> rw [hr] at hsafe
  · exact hsafe
  · exact hsafe.1.undefined

end Production.Safe

/-- The predeclared methods have no address. -/
theorem SymbolTable.address_initial {id : EntryId} {e : Entry} {m : Method}
    (he : SymbolTable.initial.entryAt? id = some e) (hm : e.method? = some m) : m.address = 0 := by
  have hall : ∀ e ∈ SymbolTable.initial.entries.toList, ∀ m ∈ e.method?, m.address = 0 := by
    decide
  exact hall e (Array.mem_toList_iff.2 (Array.mem_of_getElem? he)) m hm

/-- Once the first token is taken, a session is healthy. -/
theorem Session.Healthy.start {stream : Token.Stream} (hlast : stream.last.kind = .endOfFile)
    (options : Options) :
    (Session.start stream options).advance.Healthy (.ofStream options stream) ∅ := by
  have hleft := Session.left_advance (s := Session.start stream options) hlast
  refine ⟨?_, Nat.add_le_add_right hleft 2, SymbolTable.Closed.initial, ⟨?_, ?_⟩, ?_, ?_, ?_⟩
  · obtain ⟨_ | ⟨t, ts⟩, last⟩ := stream <;> exact hlast
  · intro l ps hps
    simp [Session.start, Session.advance, Assembly.label?] at hps
  · intro l A hA
    simp [Session.start, Session.advance, Assembly.label?] at hA
  · ext l
    simp [Session.start, Session.advance, Assembly.label?, Assembly.undefined]
  · intro id e m he hm
    rw [SymbolTable.address_initial he hm]
    exact Nat.zero_le _
  · exact SymbolTable.Closed.initial.known_none

end MicroJava
