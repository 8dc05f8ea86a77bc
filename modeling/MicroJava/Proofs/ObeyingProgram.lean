import MicroJava.Proofs.ObeyingMethod

/-!
# Rules for programs

Methods and programs obey the static rules (`Obeys.methods`, `Obeys.program`). The session knows where the
program starts exactly if its entry method has been declared (`Between`).
-/

namespace MicroJava

open Static Tree

/-! ### Blocks -/

theorem Move.entry {F : Frame} {s s' : Session} {x y : Option Nat} (h : Move F s x s' y) :
    s'.assembly.entry = s.assembly.entry := by
  cases h with
  | define _ _ _ hs =>
    obtain ⟨ps, a, -, hpatch, rfl⟩ := succeeds_define.1 hs
    obtain ⟨code, rfl⟩ := exists_of_patches hpatch
    rfl
  | write _ _ hs => exact hs.kept.2
  | _ => rfl

/-- In a block it does not change where the program starts. -/
theorem Steps.entry {F : Frame} {s s' : Session} {x y : Option Nat} (h : Steps F s x s' y) :
    s'.assembly.entry = s.assembly.entry := by
  induction h with
  | refl => rfl
  | snoc _ hm ih => exact hm.entry.trans ih

variable {ρ : Classes} {Γ Γ' : Context} {k : Knowledge} {t₀ : SymbolTable} {id : EntryId} {n : String}
  {σ : Static.Signature} {i : TypeId} {r : Ty}

/-! ### Inside a method -/

namespace InMethod

/-- The method is given its address. -/
theorem beginning (h : InMethod ρ Γ t₀ id n σ Γ' k) (address : Nat) (entry : Option Nat) :
    InMethod ρ Γ t₀ id n σ Γ' ⟨k.table.update id (·.updateMethod fun m => { m with address }),
      k.returnType, entry⟩ := by
  have hsignature : ∀ m, k.table.HasSignature ρ m σ → k.table.HasSignature ρ { m with address } σ :=
    fun _ hm => ⟨hm.variadic, hm.count, hm.leading⟩
  have hvariables := h.isVariable
  obtain ⟨Δ, Δ', hΔ, hΔ', rfl⟩ := h.inside
  have hk := h.surrounds.agrees h.agrees hvariables rfl hsignature fun _ _ hle => hle
  exact ⟨⟨hk.table, hk.result, hk.names, hk.sound, hk.predeclared⟩,
    h.surrounds.update rfl hsignature, Δ, Δ', hΔ, hΔ', rfl⟩

/-- Behind the method, it is declared with all its variables. -/
theorem closed (h : InMethod ρ Γ t₀ id n σ Γ' k) (hΓ : Γ.result = .void) (entry : Option Nat) :
    Knowledge.Agrees ρ (Γ.declare n (.method σ)) ⟨k.table.closeScope.2.update id
      (·.updateMethod fun m => { m with locals := k.table.closeScope.1 }), .none, entry⟩ := by
  have hvariables := h.isVariable
  obtain ⟨Δ, Δ', hΔ, -, rfl⟩ := h.inside
  have hlocals : List.Forall₂ (fun id b => k.table.Binds ρ id b.1 b.2)
      k.table.current.locals.toList (Δ ++ Δ') := h.agrees.table.current.locals
  have hclose : k.table.closeScope.1 = k.table.current.locals.toList := by
    have hinner := h.agrees.table.inner_ne_nil (List.cons_ne_nil _ _)
    exact k.table.closeScope_fst (List.length_pos_iff.2 hinner)
  have hcount : σ.parameters.length = Δ.length := by
    simpa using (congrArg List.length hΔ).symm
  have hsignature : ∀ m, k.table.HasSignature ρ m σ →
      k.table.HasSignature ρ { m with locals := k.table.current.locals.toList } σ := fun m hm =>
    .of_scope hlocals hΔ hm.variadic (hm.count.trans hcount) rfl
  have hk := h.surrounds.agrees h.agrees hvariables rfl hsignature fun m hm _ => by
      have hlength := hlocals.length_eq
      have hparameters := hm.count
      rw [List.length_append] at hlength
      simp only
      omega
  have hclosed := hk.closeScope rfl
  rw [hclose]
  simp only [SymbolTable.closeScope_update] at hclosed
  refine ⟨⟨hclosed.table.types, hclosed.table.scopes, hclosed.table.classes⟩, ?_, hclosed.names,
    hclosed.sound, hclosed.predeclared⟩
  have hresult : (Γ.declare n (.method σ)).result = .void := hΓ
  rw [hresult]
  rfl

end InMethod

/-- A method is declared without parameters before they are read. -/
theorem Pending.enterMethod (h : Pending ρ Γ t₀ id ⟨n, i, .method {}⟩ k)
    (hr : t₀.types.HasType ρ r i) :
    InMethod ρ Γ t₀ id n ⟨r, [], none⟩ (Γ.enterMethod n ⟨r, [], none⟩ [])
      ⟨k.table.openScope, i, k.entry⟩ := by
  have hmeans : (t₀.bind ⟨n, i, .method {}⟩).2.Means ρ ⟨n, i, .method {}⟩
      (.method ⟨r, [], none⟩) :=
    ⟨{}, rfl, by rw [SymbolTable.types_bind]; exact hr, rfl, rfl, .nil⟩
  have hk := (h.declared hmeans (Nat.le_refl _) nofun).openScope
  have htypes : k.table.types = t₀.types := by rw [h.table, SymbolTable.types_bind]
  refine ⟨⟨⟨hk.table.types, hk.table.scopes, hk.table.classes⟩, ?_, hk.names, hk.sound,
    hk.predeclared⟩, ⟨h.agrees.table, h.fresh, h.id, ?_, ⟨?_, ?_, ?_⟩⟩, [], [], rfl, nofun, rfl⟩
  · show k.table.types.HasType ρ r i
    rwa [htypes]
  · rw [h.id]
    exact .inr h.agrees.predeclared.size_le
  · rw [h.table]
    exact (SymbolTable.Agrees.below_bind t₀ _).trans
      ⟨fun _ _ h => h, fun _ _ h => h, fun _ _ h => h⟩
  · rw [h.table]
    exact SymbolTable.scopes_bind t₀ _
  · refine ⟨h.ne_none, ⟨n, i, .method {}⟩, ?_, rfl, {}, rfl, ?_, rfl, rfl, .nil⟩
    · rw [h.table]
      show (t₀.bind _).2.entryAt? _ = _
      rw [SymbolTable.entryAt?_bind, if_pos rfl]
    · show k.table.types.HasType ρ r i
      rwa [htypes]

namespace Obeys

open Production

variable {c : Setting} {F : Token.Kind → Prop} {G : Knowledge → Prop} {a : Option Nat}

theorem block {xs : Statements} (h : xs.NearestElse)
    (hG : ∀ k k', k.table.Widens k'.table → k'.entry = k.entry → G k → G k') :
    Obeys (fun k => k.Agrees ρ Γ ∧ G k) (Runs c Production.block) (Statement.block xs).yield F
      (fun _ => True) (fun _ : Unit => StatementsAreCorrect Γ false xs)
      fun _ _ k => k.Agrees ρ Γ ∧ G k := by
  refine (of_checks (J := fun Γ _ => StatementsAreCorrect Γ false xs) (D := fun _ _ _ => True)
    (S := fun _ _ _ => True) (fun w => World.Checks.block h) ?_ hG
    fun _ _ _ _ _ _ _ => trivial).strengthen fun _ _ _ _ hk => hk.1
  intro s u s' hrun hn hsound hpredeclared
  have hcovers :
      Frame.Covers
        ⟨c, s.table.entries, s.assembly.labels.size, decide (s.returnType ≠ .none), true⟩ s :=
    ⟨rfl, Nat.le_refl _, rfl, hn, hsound, hpredeclared⟩
  obtain ⟨y, hsteps, -⟩ := Emits.block (q := True) rfl hcovers hrun holds_none
  have hcovers' := hsteps.covers hcovers
  exact ⟨hcovers'.sound, hcovers'.predeclared, hsteps.entry⟩

theorem ending (t : TypeId) {R : Knowledge → Prop} :
    Obeys R (Runs c (Production.ending t)) [] F (fun _ => True) (fun _ : Unit => True)
      fun _ _ => R := by
  refine silent fun s u s' hrun => ⟨still_of_acts acts_ending hrun, ?_⟩
  obtain ⟨assembly, rfl, hentry, -⟩ := runs_ending hrun
  refine ⟨rfl, fun hk => ?_⟩
  rwa [Session.knowledge, hentry]

/-- Behind its variables, a method begins, and its block may use them. -/
theorem behindVariables {isEntry : Bool} {count : Nat} {Γ₁ : Context} {xs : Statements}
    (hxs : xs.NearestElse) :
    Obeys (fun k => InMethod ρ Γ t₀ id n σ Γ₁ k ∧ k.entry = a)
      (Runs c (do
        let size := (← Production.table).current.variableCount
        Production.reportIf ((← read).options.maxLocals < size) .tooManyLocals
        beginning id isEntry count size
        Production.block
        Production.ending i)) (Statement.block xs).yield F (fun _ => True)
      (fun Γ' => Γ₁.scope.length ≤ c.options.maxLocals ∧ StatementsAreCorrect Γ₁ false xs ∧ Γ' = Γ₁)
      fun _ Γ' k => InMethod ρ Γ t₀ id n σ Γ' k ∧ (k.entry.isSome ↔ isEntry ∨ a.isSome) := by
  refine table fun t => setting (Obeys.iff (J := fun Γ' => ¬c.options.maxLocals <
    t.current.variableCount ∧ StatementsAreCorrect Γ₁ false xs ∧ Γ' = Γ₁) ?_ ?_)
  · refine (reportIf rfl).ensureHere fun _ _ => step (T := fun _ k => k.Agrees ρ Γ₁ ∧
      Surrounds ρ Γ t₀ id n σ k.table ∧ Γ.Inside n σ Γ₁ ∧ (k.entry.isSome ↔ isEntry ∨ a.isSome))
      (fun s u s' hrun => ⟨still_beginning hrun, ?_⟩) fun _ => ?_
    · obtain rfl := runs_beginning.1 hrun
      refine ⟨rfl, fun ⟨_, ⟨hin, ha⟩, _⟩ => ?_⟩
      have hbegin := hin.beginning s.assembly.here
        (if isEntry then some s.assembly.here else s.assembly.entry)
      refine ⟨hbegin.agrees, hbegin.surrounds, hbegin.inside, ?_⟩
      rw [← ha]
      cases isEntry <;> simp [Session.knowledge, Assembly.emit]
    · rw [← List.append_nil (Statement.block xs).yield]
      refine Obeys.before (P := fun _ => True) (T := fun _ Γ' k => InMethod ρ Γ t₀ id n σ Γ' k ∧
        (k.entry.isSome ↔ isEntry ∨ a.isSome)) ?_ (fun _ _ _ => ending i) fun _ hrest => hrest
      refine (block hxs fun k k' hw hentry h => ?_).conseq (fun _ hk => hk)
        (fun _ _ _ hxs => ⟨Γ₁, hxs, rfl⟩) ?_
      · exact ⟨h.1.widens hw, h.2.1, hentry ▸ h.2.2⟩
      · rintro - - _ ⟨hxs, rfl⟩
        exact ⟨(), hxs, fun _ _ hk => ⟨⟨hk.1, hk.2.1, hk.2.2.1⟩, hk.2.2.2⟩⟩
  · rintro k ⟨⟨hin, -⟩, rfl⟩ Γ'
    rw [hin.variableCount, Nat.not_lt]

/-- The variables of a method are declared behind its parameters, and its block may use them. -/
theorem methodBody {isEntry : Bool} {count : Nat} {Γ₁ : Context} {vs : List Variables}
    {xs : Statements} (hxs : xs.NearestElse) :
    Obeys (fun k => InMethod ρ Γ t₀ id n σ Γ₁ k ∧ k.entry = a)
      (Runs c (methodBody id isEntry i count))
      (vs.flatMap Variables.yield ++ (Statement.block xs).yield) F (fun _ => True)
      (fun Γ' => AllDeclare VariablesDeclare Γ₁ vs Γ' ∧ Γ'.scope.length ≤ c.options.maxLocals ∧
        StatementsAreCorrect Γ' false xs)
      fun _ Γ' k => InMethod ρ Γ t₀ id n σ Γ' k ∧ (k.entry.isSome ↔ isEntry ∨ a.isSome) := by
  rw [Production.methodBody]
  refine Obeys.iff (J := fun Γ' => ∃ Γ₂, AllDeclare VariablesDeclare Γ₁ vs Γ₂ ∧
    Γ₂.scope.length ≤ c.options.maxLocals ∧ StatementsAreCorrect Γ₂ false xs ∧ Γ' = Γ₂) ?_ ?_
  · refine (((variableDeclarations vs Γ₁).along
      (G := fun k => Surrounds ρ Γ t₀ id n σ k.table ∧ Γ.Inside n σ Γ₁ ∧ k.entry = a)
      fun s u s' hrun hs => ?_).weaken fun k hk =>
        ⟨hk.1.agrees, hk.1.surrounds, hk.1.inside, hk.2⟩).bind (fun _ Γ₂ _ => ?_) ?_
    · have hdeclares := declares_variableDeclarations hrun
      obtain ⟨dataSize, hassembly⟩ := hdeclares.assembly
      refine ⟨hs.1.adds hdeclares.table, hs.2.1, ?_⟩
      rw [← hs.2.2, Session.knowledge, hassembly, Session.knowledge]
    · refine (behindVariables hxs).weaken ?_
      rintro k ⟨hvs, hk, hs, hinside, ha⟩
      exact ⟨⟨hk, hs, hinside.extends (.of_all hvs)⟩, ha⟩
    · intro rest _ h
      cases h
  · intro k _ Γ'
    constructor
    · rintro ⟨_, hvs, hlimit, hxs, rfl⟩
      exact ⟨hvs, hlimit, hxs⟩
    · rintro ⟨hvs, hlimit, hxs⟩
      exact ⟨_, hvs, hlimit, hxs, rfl⟩

/-! ### Methods -/

theorem resultType (r : Option TypeName) :
    Obeys (fun k => k.Agrees ρ Γ) (Runs c Production.resultType)
      (r.elim [.word .voidWord] TypeName.yield) (· ≠ .leftBracket) (fun _ => True) (ResultIs Γ r)
      fun i τ k => k.Agrees ρ Γ ∧ k.table.types.HasType ρ τ i := by
  rw [Production.resultType]
  cases r with
  | none =>
    refine check (fun _ _ => rfl) (advance (ret trivial (fun _ _ => ⟨_, .void⟩) ?_))
    rintro k hk _ ⟨⟩
    exact ⟨hk, rfl⟩
  | some t =>
    refine check_ne (fun _ _ h => by cases h) (type.iff fun _ _ τ => ⟨.type, fun h => ?_⟩)
    cases h with
    | type h => exact h

/-- The scope of a method is closed. -/
theorem closing {Γ₁ : Context} {φ : Option Nat → Prop} :
    Obeys (fun k => (InMethod ρ Γ t₀ id n σ Γ₁ k ∧ φ k.entry) ∧ Γ.result = .void)
      (Runs c (do
        let locals ← closeScope
        updateMethod id fun m => { m with locals }
        setReturnType .none)) [] F (fun _ => True) (fun _ : Unit => True)
      fun _ _ k => k.Agrees ρ (Γ.declare n (.method σ)) ∧ φ k.entry := by
  refine silent fun s u s' hrun => ?_
  simp only [updateMethod, setReturnType, runs_bind, runs_closeScope, runs_updateEntry,
    runs_modify] at hrun
  obtain ⟨_, _, ⟨rfl, rfl⟩, _, _, rfl, rfl⟩ := hrun
  refine ⟨.of_eq rfl rfl rfl, rfl, ?_⟩
  rintro ⟨⟨hk, hφ⟩, hΓ⟩
  exact ⟨hk.closed hΓ _, hφ⟩

variable {m : Tree.Method} {τs : List Ty} {extra : Option Ty}

/-- Behind its parameters, a method may turn out to be the entry method. -/
theorem behindHeader {Γ₁ : Context} {count : Nat} (hbody : m.body.NearestElse) :
    Obeys (fun k => ListDeclares (Γ.enterMethod n ⟨r, [], none⟩ []) m.parameters τs extra Γ₁ ∧
        (count = Γ₁.scope.length ∧ InMethod ρ Γ t₀ id n ⟨r, τs, extra⟩
          (Γ.enterMethod n ⟨r, τs, extra⟩ Γ₁.scope) k ∧ k.entry = a) ∧
        Γ.result = .void ∧ (i = .none ↔ r = .void))
      (Runs c (do
        let isEntry : Bool := id ≠ .none ∧ n = (← read).options.entryName
        Production.reportIf (isEntry ∧ 0 < count) .entryHasParameters
        Production.reportIf (isEntry ∧ i ≠ .none) .entryNotVoid
        Production.methodBody id isEntry i count
        let locals ← closeScope
        updateMethod id fun m => { m with locals }
        setReturnType .none))
      (m.locals.flatMap Variables.yield ++ (Statement.block m.body).yield) F (fun _ => True)
      (fun Γ' => (n = c.options.entryName → m.parameters = none ∧ r = .void) ∧
        ∃ Γ₂, (AllDeclare VariablesDeclare (Γ.enterMethod n ⟨r, τs, extra⟩ Γ₁.scope) m.locals Γ₂ ∧
          Γ₂.scope.length ≤ c.options.maxLocals ∧ StatementsAreCorrect Γ₂ false m.body) ∧
        Γ' = Γ.declare n (.method ⟨r, τs, extra⟩))
      fun _ Γ' k => k.Agrees ρ Γ' ∧ (k.entry.isSome ↔ n = c.options.entryName ∨ a.isSome) := by
  let isEntry : Bool := id ≠ .none ∧ n = c.options.entryName
  refine setting (Obeys.iff (J := fun Γ' => ¬(isEntry ∧ 0 < count) ∧ ¬(isEntry ∧ i ≠ .none) ∧
    ∃ Γ₂, (AllDeclare VariablesDeclare (Γ.enterMethod n ⟨r, τs, extra⟩ Γ₁.scope) m.locals Γ₂ ∧
        Γ₂.scope.length ≤ c.options.maxLocals ∧ StatementsAreCorrect Γ₂ false m.body) ∧
      Γ' = Γ.declare n (.method ⟨r, τs, extra⟩)) ?_ ?_)
  · refine (reportIf rfl).ensureHere fun _ _ => (reportIf rfl).ensureHere fun _ _ => ?_
    rw [← List.append_nil (_ ++ _)]
    refine Obeys.bind (S := fun _ Γ₂ k => (InMethod ρ Γ t₀ id n ⟨r, τs, extra⟩ Γ₂ k ∧
        (k.entry.isSome ↔ isEntry ∨ a.isSome)) ∧ Γ.result = .void ∧ id ≠ .none)
      (((methodBody hbody).along (G := fun _ => Γ.result = .void ∧ id ≠ .none)
       fun _ _ _ _ h => h).weaken ?_)
      (fun _ Γ₂ _ => (closing (φ := fun e => e.isSome ↔ isEntry ∨ a.isSome)).conseq
        (fun k hk => ⟨hk.2.1, hk.2.2.1⟩) (fun _ _ _ _ => ⟨_, rfl⟩) ?_)
      fun _ hrest => hrest
    · rintro k ⟨-, -, -, ⟨-, hin, ha⟩, hΓ, -⟩
      exact ⟨⟨hin, ha⟩, hΓ, hin.surrounds.method.1⟩
    · rintro k ⟨-, -, -, hid⟩ _ rfl
      refine ⟨(), trivial, fun _ k hk => ⟨hk.1, hk.2.trans ?_⟩⟩
      simp [isEntry, hid]
  · rintro k ⟨hps, ⟨rfl, hin, -⟩, -, hi⟩ Γ'
    have hid := hin.surrounds.method.1
    have hcount : 0 < Γ₁.scope.length ↔ m.parameters ≠ none := by
      obtain ⟨Δ, -, hnone, -, rfl⟩ := ListDeclares.scope hps
      exact List.length_pos_iff.trans (not_iff_not.2 hnone)
    simp only [isEntry, hid, ne_eq, not_false_eq_true, true_and, decide_eq_true_eq, hcount, hi,
      not_and, not_not]
    exact ⟨fun ⟨h, h', hrest⟩ => ⟨fun hn => ⟨h hn, h' hn⟩, hrest⟩,
      fun ⟨h, hrest⟩ => ⟨fun hn => (h hn).1, fun hn => (h hn).2, hrest⟩⟩

/-- A method, behind its name. -/
theorem behindName (hbody : m.body.NearestElse) :
    Obeys (fun k => (∃ t₀ : SymbolTable, t₀.types.HasType ρ r i ∧
        Pending ρ Γ t₀ id ⟨n, i, .method {}⟩ k) ∧ k.entry = a ∧ Γ.result = .void)
      (Runs c (do
        setReturnType i
        openScope
        let count ← Production.header id
        let isEntry : Bool := id ≠ .none ∧ n = (← read).options.entryName
        Production.reportIf (isEntry ∧ 0 < count) .entryHasParameters
        Production.reportIf (isEntry ∧ i ≠ .none) .entryNotVoid
        Production.methodBody id isEntry i count
        let locals ← closeScope
        updateMethod id fun m => { m with locals }
        setReturnType .none))
      ((.word .leftParen :: (m.parameters.elim [] Parameters.yield ++ [.word .rightParen])) ++
        (m.locals.flatMap Variables.yield ++ (Statement.block m.body).yield)) F (fun _ => True)
      (fun Γ' => ∃ v : List Ty × Option Ty × Context,
        ListDeclares (Γ.enterMethod n ⟨r, [], none⟩ []) m.parameters v.1 v.2.1 v.2.2 ∧
        (n = c.options.entryName → m.parameters = none ∧ r = .void) ∧
        ∃ Γ₂, (AllDeclare VariablesDeclare (Γ.enterMethod n ⟨r, v.1, v.2.1⟩ v.2.2.scope) m.locals Γ₂ ∧
          Γ₂.scope.length ≤ c.options.maxLocals ∧ StatementsAreCorrect Γ₂ false m.body) ∧
        Γ' = Γ.declare n (.method ⟨r, v.1, v.2.1⟩))
      fun _ Γ' k => k.Agrees ρ Γ' ∧ (k.entry.isSome ↔ n = c.options.entryName ∨ a.isSome) := by
  refine Obeys.strengthen (T := fun _ Γ' k => ∃ _ : SymbolTable, k.Agrees ρ Γ' ∧
    (k.entry.isSome ↔ n = c.options.entryName ∨ a.isSome)) ?_ fun _ _ _ _ ⟨_, h⟩ => h
  refine Obeys.weaken (R := fun k => ∃ t₀ : SymbolTable, (t₀.types.HasType ρ r i ∧
    Pending ρ Γ t₀ id ⟨n, i, .method {}⟩ k) ∧ k.entry = a ∧ Γ.result = .void) ?_
    fun k ⟨⟨t₀, h⟩, h'⟩ => ⟨t₀, h, h'⟩
  refine for_some fun t₀ => ?_
  let φ : Prop := Γ.result = .void ∧ (i = .none ↔ r = .void)
  refine step (T := fun _ k => InMethod ρ Γ t₀ id n ⟨r, [], none⟩
    (Γ.enterMethod n ⟨r, [], none⟩ []) { k with table := k.table.openScope } ∧ k.entry = a ∧ φ)
    (fun s u s' hrun => ⟨still_setReturnType hrun, ?_⟩) fun _ => ?_
  · obtain rfl := runs_modify.1 hrun
    refine ⟨rfl, fun ⟨⟨hr, hpending⟩, ha, hΓ⟩ => ⟨hpending.enterMethod hr, ha, hΓ, fun hi => ?_, ?_⟩⟩
    · exact hr.unique hpending.agrees.table.types hi
    · rintro rfl
      exact hr
  refine updateTable (L := fun k => (InMethod ρ Γ t₀ id n ⟨r, [], none⟩
    (Γ.enterMethod n ⟨r, [], none⟩ []) k ∧ k.entry = a) ∧ φ)
    (fun k hk => ⟨⟨hk.1, hk.2.1⟩, hk.2.2⟩) ?_
  exact ((header (F := fun _ => True) m.parameters).along (G := fun _ => φ) fun _ _ _ _ h => h).bind
    (fun count v _ => behindHeader hbody) fun _ _ => trivial

/-- A method, where the handles of the classes are `ρ` and the program starts at `a`. -/
theorem methodWith (hbody : m.body.NearestElse) :
    Obeys (fun k => k.Agrees ρ Γ ∧ k.entry = a ∧ Γ.result = .void)
      (Runs c Production.methodDeclaration) m.yield F (fun _ => True)
      (MethodDeclares c.options Γ m) fun _ Γ' k =>
        k.Agrees ρ Γ' ∧ (k.entry.isSome ↔ m.name = c.options.entryName ∨ a.isSome) := by
  have hyield : m.yield = m.result.elim [.word .voidWord] TypeName.yield ++ .name m.name ::
      ((.word .leftParen :: (m.parameters.elim [] Parameters.yield ++ [.word .rightParen])) ++
        (m.locals.flatMap Variables.yield ++ (Statement.block m.body).yield)) := by
    simp [Method.yield]
  let G : Knowledge → Prop := fun k => k.entry = a ∧ Γ.result = .void
  rw [Production.methodDeclaration, hyield]
  refine Obeys.iff (J := fun Γ' => ∃ r, ResultIs Γ m.result r ∧ Γ.IsFresh m.name ∧
    ∃ v : List Ty × Option Ty × Context,
      ListDeclares (Γ.enterMethod m.name ⟨r, [], none⟩ []) m.parameters v.1 v.2.1 v.2.2 ∧
      (m.name = c.options.entryName → m.parameters = none ∧ r = .void) ∧
      ∃ Γ₂, (AllDeclare VariablesDeclare (Γ.enterMethod m.name ⟨r, v.1, v.2.1⟩ v.2.2.scope) m.locals Γ₂ ∧
        Γ₂.scope.length ≤ c.options.maxLocals ∧ StatementsAreCorrect Γ₂ false m.body) ∧
      Γ' = Γ.declare m.name (.method ⟨r, v.1, v.2.1⟩)) ?_ ?_
  · refine ((resultType m.result).along (G := G) fun s i s' hrun hs => ?_).bind
      (fun i r _ => identifier fun hn => ?_) fun _ _ h => by cases h
    · obtain ⟨dataSize, hassembly⟩ := (declares_resultType hrun).assembly
      refine ⟨?_, hs.2⟩
      rw [← hs.1, Session.knowledge, hassembly, Session.knowledge]
    · refine (((declare hn fun t => t.types.HasType ρ r i).along (G := G)
        fun s id s' hrun hs => ?_).weaken fun _ hk => hk.2).ensureHere fun id _ =>
          (behindName hbody).weaken fun _ hk => hk.2
      rcases runs_declare.1 hrun with ⟨-, -, rfl⟩ | ⟨-, -, -, rfl⟩ | ⟨-, -, -, rfl⟩ <;> exact hs
  · intro k _ Γ'
    constructor
    · rintro ⟨r, hr, hn, ⟨τs, extra, Γ₁⟩, hps, hentry, Γ₂, ⟨hvs, hlimit, hxs⟩, rfl⟩
      exact .mk hr hn hps hvs hlimit hentry hxs
    · rintro ⟨hr, hn, hps, hvs, hlimit, hentry, hxs⟩
      exact ⟨_, hr, hn, (_, _, _), hps, hentry, _, ⟨hvs, hlimit, hxs⟩, rfl⟩

end Obeys

/-! ### The entry method -/

namespace Static

/-- The innermost scope declares a method of this name. -/
def Context.HasMethod (Γ : Context) (n : String) : Prop := ∃ σ, Γ.scope.lookup n = some (.method σ)

theorem Context.hasMethod_declare {m : String} (hm : Γ.IsFresh m) :
    (Γ.declare m (.method σ)).HasMethod n ↔ m = n ∨ Γ.HasMethod n := by
  simp only [HasMethod, declare, List.lookup_append]
  by_cases hmn : m = n
  · subst hmn
    rw [IsFresh] at hm
    simp [hm]
  · have hne : (n == m) = false := beq_eq_false_iff_ne.2 (Ne.symm hmn)
    simp [List.lookup_cons, hne, hmn]

theorem Context.hasMethod_append {Δ : Static.Scope} (hΔ : ∀ b ∈ Δ, ∀ σ, b.2 ≠ .method σ)
    (hΓ : Γ'.scope = Γ.scope ++ Δ) (h : Γ'.HasMethod n) : Γ.HasMethod n := by
  obtain ⟨σ, hσ⟩ := h
  rw [hΓ, List.lookup_append] at hσ
  rcases Option.or_eq_some_iff.1 hσ with hσ | ⟨-, hσ⟩
  · exact ⟨σ, hσ⟩
  · exact absurd rfl (hΔ _ (Static.Scope.mem_of_lookup hσ) σ)

/-- In front of the methods, none is declared. -/
theorem hasMethod_of_declarations {options : Options} {ds : List Declaration}
    (h : AllDeclare (DeclarationDeclares options) Γ ds Γ') : Γ'.HasMethod n → Γ.HasMethod n := by
  induction h with
  | nil => exact fun h => h
  | cons hx _ ih =>
    refine fun h => ?_
    cases hx with
    | vars hvs =>
      obtain ⟨Δ, hΔ, rfl⟩ := Static.Context.Extends.of_variables hvs
      refine Context.hasMethod_append (fun b hb σ heq => ?_) rfl (ih h)
      have hvariable := hΔ b hb
      rw [heq] at hvariable
      contradiction
    | record _ hclass _ _ =>
      subst hclass
      exact Context.hasMethod_append (Δ := [(_, .type (.object _))]) (by simp) rfl (ih h)
    | _ => exact Context.hasMethod_append (Δ := [(_, .constant _ _)]) (by simp) rfl (ih h)

/-- The declarations leave the result type alone. -/
theorem result_of_declarations {options : Options} {ds : List Declaration}
    (h : AllDeclare (DeclarationDeclares options) Γ ds Γ') : Γ'.result = Γ.result := by
  induction h with
  | nil => rfl
  | cons hx _ ih =>
    rw [ih]
    cases hx with
    | vars hvs =>
      obtain ⟨Δ, -, rfl⟩ := Static.Context.Extends.of_variables hvs
      rfl
    | record _ hclass _ _ =>
      subst hclass
      rfl
    | _ => rfl

theorem hasMethod_of_methods {options : Options} {ms : List Tree.Method}
    (h : AllDeclare (MethodDeclares options) Γ ms Γ') :
    Γ'.HasMethod n ↔ (∃ m ∈ ms, m.name = n) ∨ Γ.HasMethod n := by
  induction h with
  | nil => simp
  | cons hx _ ih =>
    rw [ih]
    cases hx with
    | mk _ hname =>
      rw [Context.hasMethod_declare hname]
      simp [or_assoc, or_left_comm]

end Static

/-- A program opens a scope for what it declares. -/
theorem Pending.ofProgram
    (h : Pending (fun _ => none) ⟨predeclared, [], [], .void⟩ t₀ id ⟨n, i, .program []⟩ k) :
    Knows (.ofProgram n) { k with table := k.table.openScope } := by
  have hmeans : (t₀.bind ⟨n, i, .program []⟩).2.Means (fun _ => none) ⟨n, i, .program []⟩ .program :=
    ⟨[], rfl⟩
  exact ⟨_, (h.declared hmeans trivial nofun).openScope, fun _ h => absurd rfl h,
    fun _ h => absurd rfl h⟩

/-- Between two methods, the program starts in the entry method, if that is declared. -/
structure Between (entryName : String) (Γ : Context) (k : Knowledge) : Prop where
  knows : Knows Γ k
  result : Γ.result = .void
  entry : k.entry.isSome ↔ Γ.HasMethod entryName

namespace Obeys

open Production

variable {c : Setting} {F : Token.Kind → Prop}

theorem methodDeclaration {m : Tree.Method} (hbody : m.body.NearestElse) :
    Obeys (Between c.options.entryName Γ) (Runs c Production.methodDeclaration) m.yield F
      (fun _ => True) (MethodDeclares c.options Γ m) fun _ Γ' => Between c.options.entryName Γ' := by
  let G : Classes → Option Nat → Prop := fun ρ a =>
    Γ.Owns ρ ∧ Γ.result = .void ∧ (a.isSome ↔ Γ.HasMethod c.options.entryName)
  refine Obeys.conseq (J := MethodDeclares c.options Γ m)
    (for_some fun x : Classes × Option Nat =>
      (methodWith (ρ := x.1) (a := x.2) hbody).along (G := fun _ => G x.1 x.2)
        fun _ _ _ _ h => h) ?_ (fun _ _ Γ' h => ⟨Γ', h⟩) ?_
  · rintro k ⟨⟨ρ, hk, hΓ⟩, hresult, hentry⟩
    exact ⟨(ρ, k.entry), ⟨hk, rfl, hresult⟩, hΓ, hresult, hentry⟩
  · rintro - - Γ' hmethod
    refine ⟨Γ', hmethod, ?_⟩
    rintro - k ⟨⟨ρ, a⟩, ⟨hk, hentry⟩, hΓ, hresult, ha⟩
    cases hmethod with
    | mk _ hname =>
      refine ⟨⟨ρ, hk, hΓ.extend _⟩, hresult, ?_⟩
      rw [hentry, ha, Context.hasMethod_declare hname]

theorem methods (ms : List Tree.Method) (Γ : Context) (hms : ∀ m ∈ ms, m.body.NearestElse) :
    Obeys (Between c.options.entryName Γ) (Runs c Production.methods) (ms.flatMap Tree.Method.yield)
      (· = .rightBrace) (fun _ => True) (AllDeclare (MethodDeclares c.options) Γ ms)
      fun _ Γ' => Between c.options.entryName Γ' := by
  refine (all (R := Between c.options.entryName) (H := fun _ => True) (fun Γ m hm => ?_) (fun Γ => ?_)
    (fun _ _ _ => trivial) ms Γ hms).repeats
  · cases hresult : m.result with
    | none =>
      refine peek (k := .voidWord) (fun _ _ => ?_) (turn (methodDeclaration hm))
      rw [Method.yield, hresult]
      rfl
    | some t =>
      refine peek (k := .identifier) (fun _ _ => ?_) (turn (methodDeclaration hm))
      rw [Method.yield, hresult]
      rfl
  · exact peek (k := .rightBrace) (fun rest hrest => hrest) turn_last

end Obeys

/-! ### Programs -/

/-- Around a program are the names of the language. -/
theorem SymbolTable.initial_agrees :
    SymbolTable.initial.Agrees (fun _ => none) ⟨predeclared, [], [], .void⟩ := by
  let Γ₀ : Context := ⟨[], [], [], .void⟩
  let t₀ : SymbolTable :=
    { entries := #[⟨"$none", .none, .var 0 0⟩], types := (Types.initial.arrayOf .none).2 }
  have h₀ : t₀.Agrees (fun _ => none) Γ₀ :=
    ⟨⟨rfl, rfl, rfl, rfl, by simp, by simp⟩, .cons .empty .nil, by simp⟩
  have h₁ := h₀.bind (e := ⟨"int", .int, .typeName⟩) (x := .type .int) (by decide) (by decide)
    ⟨rfl, rfl⟩
  have h₂ := h₁.bind (e := ⟨"char", .char, .typeName⟩) (x := .type .char) (by decide) (by decide)
    ⟨rfl, rfl⟩
  have h₃ := h₂.bind (e := ⟨"null", .null, .constant 0⟩) (x := .constant .null 0) (by decide)
    (by decide) ⟨rfl, rfl⟩
  have h₄ := h₃.bindBuiltin (n := "chr") "i" (r := .char) (τ := .int)
    (by decide) rfl rfl
  have h₅ := h₄.bindBuiltin (n := "ord") "ch" (r := .int) (τ := .char)
    (by decide) rfl rfl
  exact h₅.bindBuiltin (n := "len") "arr" (r := .int) (τ := .array .void)
    (by decide) rfl ⟨.none, rfl, by decide, rfl⟩

namespace Obeys

open Production

variable {c : Setting} {F : Token.Kind → Prop}

/-- Behind the methods, one of them must be the entry method. -/
theorem behindMethods :
    Obeys (Between c.options.entryName Γ)
      (Runs c (do
        Production.reportIf (← get).assembly.entry.isNone .noEntryMethod [(← read).options.entryName]
        Production.expect .rightBrace
        let members ← closeScope
        updateEntry id fun e => { e with meaning := .program members })) [.word .rightBrace] F
      (fun _ => True) (fun _ : Unit => Γ.HasMethod c.options.entryName) fun _ _ _ => True := by
  refine session fun s => setting (Obeys.iff (J := fun _ => ¬s.assembly.entry.isNone ∧ True) ?_ ?_)
  · refine (reportIf rfl).ensureHere fun _ _ => expect (silent fun s u s' hrun => ?_)
    simp only [runs_bind, runs_closeScope, runs_updateEntry] at hrun
    obtain ⟨_, _, ⟨rfl, rfl⟩, rfl⟩ := hrun
    exact ⟨.of_eq rfl rfl rfl, rfl, fun _ => trivial⟩
  · rintro k ⟨hk, rfl⟩ _
    rw [← hk.entry, and_true]
    simp [Session.knowledge, Option.isSome_iff_ne_none]

/-- Behind the declarations, there are not too many variables, and the methods follow. -/
theorem behindDeclarations {ms : List Tree.Method} (hms : ∀ m ∈ ms, m.body.NearestElse) :
    Obeys (fun k => Knows Γ k ∧ k.entry = none ∧ Γ.result = .void ∧ ¬Γ.HasMethod c.options.entryName)
      (Runs c (do
        Production.reportIf ((← read).options.maxGlobals < (← Production.table).current.locals.size)
          .tooManyGlobals
        Production.expect .leftBrace
        Production.methods
        Production.reportIf (← get).assembly.entry.isNone .noEntryMethod [(← read).options.entryName]
        Production.expect .rightBrace
        let members ← closeScope
        updateEntry id fun e => { e with meaning := .program members }))
      (.word .leftBrace :: (ms.flatMap Tree.Method.yield ++ [.word .rightBrace])) F (fun _ => True)
      (fun _ : Unit => Γ.scope.length ≤ c.options.maxGlobals ∧
        ∃ Γ', AllDeclare (MethodDeclares c.options) Γ ms Γ' ∧ ∃ m ∈ ms, m.name = c.options.entryName)
      fun _ _ _ => True := by
  refine setting (table fun t => Obeys.iff (J := fun _ =>
    ¬c.options.maxGlobals < t.current.locals.size ∧
    ∃ Γ', AllDeclare (MethodDeclares c.options) Γ ms Γ' ∧ Γ'.HasMethod c.options.entryName) ?_ ?_)
  · refine (reportIf rfl).ensureHere fun _ _ => expect (((methods ms Γ hms).weaken ?_).bind
      (fun _ Γ' _ => behindMethods.weaken fun _ => And.right) fun _ _ => rfl)
    rintro k ⟨-, ⟨hk, hentry, hresult, hnone⟩, -⟩
    exact ⟨hk, hresult, by rw [hentry]; simp [hnone]⟩
  · rintro k ⟨⟨⟨ρ, hk, -⟩, -, -, hnone⟩, rfl⟩ _
    rw [← Array.length_toList, hk.table.current.locals.length_eq, Nat.not_lt]
    refine and_congr_right fun _ => exists_congr fun Γ' => and_congr_right fun hΓ' => ?_
    rw [hasMethod_of_methods hΓ', or_iff_left hnone]

/-- A program, where only the names of the language are declared. -/
theorem program {q : Program} (hq : q.NearestElse) :
    Obeys (fun k => k.Agrees (fun _ => none) ⟨predeclared, [], [], .void⟩ ∧ k.entry = none)
      (Runs c Production.program) q.yield F (fun _ => True)
      (fun _ : Unit => ProgramIsCorrect c.options q) fun _ _ _ => True := by
  rw [Production.program, Program.yield]
  refine expect (identifier fun hn => Obeys.iff (J := fun _ =>
    Context.IsFresh ⟨predeclared, [], [], .void⟩ q.name ∧ ∃ Γ,
      AllDeclare (DeclarationDeclares c.options) (.ofProgram q.name) q.declarations Γ ∧
      Γ.scope.length ≤ c.options.maxGlobals ∧
      ∃ Γ', AllDeclare (MethodDeclares c.options) Γ q.methods Γ' ∧ ∃ m ∈ q.methods, m.name = c.options.entryName) ?_ ?_)
  · refine (((declare (ρ := fun _ => none) hn fun _ => True).along (G := fun k => k.entry = none)
      fun s id s' hrun hs => ?_).weaken ?_).ensureHere fun id _ => ?_
    · rcases runs_declare.1 hrun with ⟨-, -, rfl⟩ | ⟨-, -, -, rfl⟩ | ⟨-, -, -, rfl⟩ <;> exact hs
    · exact fun k hk => ⟨⟨hk.1, trivial⟩, hk.2⟩
    · refine updateTable (L := fun k => Knows (.ofProgram q.name) k ∧ k.entry = none) ?_ ?_
      · rintro k ⟨-, ⟨t₀, -, hpending⟩, hentry⟩
        exact ⟨hpending.ofProgram, hentry⟩
      · refine ((declarations q.declarations (.ofProgram q.name)).along (G := fun k => k.entry = none)
          fun s u s' hrun hs => ?_).bind
            (fun _ Γ _ => (behindDeclarations hq).weaken ?_) fun _ _ => rfl
        · obtain ⟨dataSize, hassembly⟩ := (declares_declarations hrun).assembly
          rw [← hs, Session.knowledge, hassembly, Session.knowledge]
        · rintro k ⟨hds, hk, hentry⟩
          exact ⟨hk, hentry, result_of_declarations hds,
            fun h => by cases (hasMethod_of_declarations hds h).choose_spec⟩
  · intro k _ _
    constructor
    · rintro ⟨hname, Γ, hds, hlimit, Γ', hms, hentry⟩
      exact .mk hname hds hlimit hms hentry
    · rintro ⟨hname, hds, hlimit, hms, hentry⟩
      exact ⟨hname, _, hds, hlimit, _, hms, hentry⟩

end Obeys

end MicroJava
