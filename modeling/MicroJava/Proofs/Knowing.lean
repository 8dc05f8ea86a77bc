import MicroJava.Proofs.Obeying
import MicroJava.Proofs.Scoping

/-!
# What is known of the declarations

The session knows what a context declares (`Knowledge.Agrees`, `Knows`). A name that is being declared
stands for an entry that may still change (`Pending`); the context declares it when the entry is what it
will be.
-/

namespace MicroJava

open Static Tree

instance : Inhabited Context := ⟨⟨[], [], [], .void⟩⟩

/-! ### What is known of a context -/

/-- Only the types that have names are declared. -/
def Static.Scope.NamesTypes (Δ : Static.Scope) : Prop :=
  ∀ n τ, (n, .type τ) ∈ Δ → τ = .int ∨ τ = .char ∨ ∃ k, τ = .object k

/-- The session knows what the context declares. -/
structure Knowledge.Agrees (ρ : Classes) (Γ : Context) (k : Knowledge) : Prop where
  table : k.table.Agrees ρ Γ
  result : k.table.types.HasType ρ Γ.result k.returnType
  names : ∀ Δ ∈ Γ.scope :: Γ.around, Static.Scope.NamesTypes Δ
  sound : k.table.Sound
  predeclared : k.table.Predeclared

variable {ρ : Classes} {Γ : Context} {k : Knowledge} {t₀ : SymbolTable} {id : EntryId} {e : Entry}
  {n : String} {i : TypeId} {τ : Ty}

theorem Knowledge.Agrees.namesTypes (h : k.Agrees ρ Γ) : Γ.NamesTypes := by
  intro n τ hn
  obtain ⟨Δ, hΔ, hx⟩ := List.exists_of_findSome?_eq_some hn
  exact h.names Δ hΔ n τ (Static.Scope.mem_of_lookup hx)

theorem Knowledge.Agrees.widens (h : k.Agrees ρ Γ) {t : SymbolTable} (hw : k.table.Widens t)
    (hsound : t.Sound) : Knowledge.Agrees ρ Γ { k with table := t } where
  table := h.table.widens hw
  result := h.result.mono (hw.below (ρ := ρ)).classes (hw.below (ρ := ρ)).arrays
  names := h.names
  sound := hsound
  predeclared := by
    obtain ⟨types, rfl, -⟩ := hw
    exact h.predeclared

theorem Knowledge.Agrees.openScope (h : k.Agrees ρ Γ) :
    Knowledge.Agrees ρ (Γ.enter []) { k with table := k.table.openScope } where
  table := h.table.openScope
  result := h.result
  names := by
    intro Δ hΔ
    rcases List.mem_cons.1 hΔ with rfl | hΔ
    · exact nofun
    · exact h.names Δ hΔ
  sound := h.sound.openScope
  predeclared := h.predeclared

theorem Knowledge.Agrees.closeScope (h : k.Agrees ρ Γ) {Δ : Static.Scope} {around : List Static.Scope}
    (hΓ : Γ.around = Δ :: around) : Knowledge.Agrees ρ { Γ with scope := Δ, around }
      { k with table := k.table.closeScope.2 } where
  table := h.table.closeScope hΓ
  result := by
    rw [SymbolTable.types_closeScope]
    exact h.result
  names := fun Δ' hΔ => h.names Δ' (List.mem_cons_of_mem _ (hΓ ▸ hΔ))
  sound := h.sound.closeScope
  predeclared := fun id hid => by
    rw [SymbolTable.entryAt?, SymbolTable.entries_closeScope]
    exact h.predeclared id hid

theorem Knowledge.Agrees.setFields (h : k.Agrees ρ Γ) {a : TypeId} {ids : List EntryId}
    {fields : Static.Scope} (hn : ρ n = some a)
    (hfields : List.Forall₂ (fun id b => k.table.Binds ρ id b.1 b.2 ∧ b.2.isVariable) ids fields) :
    Knowledge.Agrees ρ { Γ with classes := (n, fields) :: Γ.classes }
      { k with table := k.table.setFields a ids } where
  table := h.table.setFields hn hfields
  result := h.result.mono (fun _ _ h => h) fun i e => Types.array_setFields a ids i e
  names := h.names
  sound := h.sound.setFields a fun id hid => by
    obtain ⟨j, hj, rfl⟩ := List.getElem_of_mem hid
    exact (List.forall₂_iff_get.1 hfields).2 j hj (hfields.length_eq ▸ hj) |>.1.1
  predeclared := h.predeclared

/-- The name is being declared: its entry is `e`, but the context is still that of `t₀`. -/
structure Pending (ρ : Classes) (Γ : Context) (t₀ : SymbolTable) (id : EntryId) (e : Entry)
    (k : Knowledge) : Prop where
  agrees : Knowledge.Agrees ρ Γ ⟨t₀, k.returnType, k.entry⟩
  fresh : t₀.current.find? e.name = none
  id : id = ⟨t₀.entries.size⟩
  table : k.table = (t₀.bind e).2

theorem SymbolTable.update_bind (hid : (⟨t₀.entries.size⟩ : EntryId) ≠ .none) {f : Entry → Entry}
    (hname : (f e).name = e.name) (hvar : (f e).isVariable = e.isVariable) :
    (t₀.bind e).2.update ⟨t₀.entries.size⟩ f = (t₀.bind (f e)).2 := by
  obtain ⟨entries, types, inner, outermost⟩ := t₀
  have hentries : (entries.push e).modify entries.size f = entries.push (f e) := by
    apply Array.ext <;> grind
  have hinsert : ∀ sc : Scope, sc.insert (f e).name ⟨entries.size⟩ (f e).isVariable =
      sc.insert e.name ⟨entries.size⟩ e.isVariable := fun sc => by rw [hname, hvar]
  have hchange : (bind ⟨entries, types, inner, outermost⟩ e).2.changeable ⟨entries.size⟩ = true := by
    simp [changeable, hid]
  rw [update, if_pos hchange]
  rcases inner with _ | ⟨sc, outer⟩
  · exact congrArg₂ (fun es sc => SymbolTable.mk es types [] sc) hentries (hinsert outermost).symm
  · exact congrArg₂ (fun es sc => SymbolTable.mk es types (sc :: outer) outermost) hentries
      (hinsert sc).symm

namespace Pending

theorem ne_none (h : Pending ρ Γ t₀ id e k) : (⟨t₀.entries.size⟩ : EntryId) ≠ .none :=
  h.agrees.sound.fresh

theorem update (h : Pending ρ Γ t₀ id e k) {f : Entry → Entry} (hname : (f e).name = e.name)
    (hvar : (f e).isVariable = e.isVariable) :
    Pending ρ Γ t₀ id (f e) { k with table := k.table.update id f } where
  agrees := h.agrees
  fresh := by rw [hname, h.fresh]
  id := h.id
  table := by rw [h.table, h.id, SymbolTable.update_bind h.ne_none hname hvar]

/-- The context declares the name, too. -/
theorem declared (h : Pending ρ Γ t₀ id e k) {x : Denotation} (hx : (t₀.bind e).2.Means ρ e x)
    (hsound : e.Sound)
    (hnames : ∀ τ, x = .type τ → τ = .int ∨ τ = .char ∨ ∃ k, τ = .object k) :
    k.Agrees ρ (Γ.declare e.name x) where
  table := by
    rw [h.table]
    exact h.agrees.table.bind h.fresh h.ne_none hx
  result := by
    rw [h.table, SymbolTable.types_bind]
    exact h.agrees.result
  names := by
    intro Δ hΔ
    rcases List.mem_cons.1 hΔ with rfl | hΔ
    · intro m τ hm
      rcases List.mem_append.1 hm with hm | hm
      · exact h.agrees.names _ List.mem_cons_self m τ hm
      · exact hnames τ (by simpa [eq_comm] using (Prod.mk.inj (List.mem_singleton.1 hm)).2)
    · exact h.agrees.names Δ (List.mem_cons_of_mem _ hΔ)
  sound := by
    rw [h.table]
    exact h.agrees.sound.bind hsound
  predeclared := by
    rw [h.table]
    exact h.agrees.predeclared.bind e

theorem asVariable {slot level : Nat} (h : Pending ρ Γ t₀ id ⟨n, i, .var slot level⟩ k)
    (hτ : t₀.types.HasType ρ τ i) : k.Agrees ρ (Γ.declare n (.variable τ)) :=
  h.declared (e := ⟨n, i, .var slot level⟩)
    ⟨⟨slot, level, rfl⟩, by rw [SymbolTable.types_bind]; exact hτ⟩ trivial nofun

theorem asConstant {v : Int32} (h : Pending ρ Γ t₀ id ⟨n, i, .constant v⟩ k)
    (hτ : t₀.types.HasType ρ τ i) : k.Agrees ρ (Γ.declare n (.constant τ v)) :=
  h.declared (e := ⟨n, i, .constant v⟩) ⟨rfl, by rw [SymbolTable.types_bind]; exact hτ⟩ trivial
    nofun

end Pending

/-! ### What variables add -/

/-- Contexts that only differ by variables of the innermost scope. -/
def Static.Context.Extends (Γ Γ' : Context) : Prop :=
  ∃ Δ : Static.Scope, (∀ b ∈ Δ, b.2.isVariable) ∧ Γ' = { Γ with scope := Γ.scope ++ Δ }

namespace Static.Context.Extends

theorem refl (Γ : Context) : Γ.Extends Γ := ⟨[], by simp, by simp⟩

theorem declare (Γ : Context) (n : String) (τ : Ty) : Γ.Extends (Γ.declare n (.variable τ)) :=
  ⟨[(n, .variable τ)], by simp [ Denotation.isVariable], rfl⟩

theorem trans {Γ Γ₁ Γ' : Context} (h : Γ.Extends Γ₁) (h' : Γ₁.Extends Γ') : Γ.Extends Γ' := by
  obtain ⟨Δ, hΔ, rfl⟩ := h
  obtain ⟨Δ', hΔ', rfl⟩ := h'
  refine ⟨Δ ++ Δ', fun b hb => ?_, by simp⟩
  rcases List.mem_append.1 hb with hb | hb
  · exact hΔ b hb
  · exact hΔ' b hb

theorem of_names {τ : Ty} {ns : Names} {Γ Γ' : Context} (h : NamesDeclare τ Γ ns Γ') :
    Γ.Extends Γ' := by
  induction h with
  | last _ => exact .declare ..
  | more _ _ ih => exact (declare ..).trans ih

theorem of_variables {vs : Variables} {Γ Γ' : Context} (h : VariablesDeclare Γ vs Γ') :
    Γ.Extends Γ' := by
  cases h with
  | mk _ hns => exact .of_names hns

theorem of_all {vs : List Variables} {Γ Γ' : Context} (h : AllDeclare VariablesDeclare Γ vs Γ') :
    Γ.Extends Γ' := by
  induction h with
  | nil => exact .refl _
  | cons hx _ ih => exact (of_variables hx).trans ih

end Static.Context.Extends

/-! ### Classes that are declared -/

/-- The class is new, and has no fields yet. -/
structure IsNew (ρ : Classes) (a : TypeId) (t : SymbolTable) : Prop where
  descriptor : t.types.descriptor? a = some (.object [])
  null : a ≠ .null
  none : a ≠ .none
  unknown : ∀ k, ρ k ≠ some a

theorem IsNew.of_agrees {t : SymbolTable} (h : t.Agrees ρ Γ) :
    IsNew ρ t.newClass.1 t.newClass.2 where
  descriptor := by
    simp [SymbolTable.newClass, Types.newClass, Types.descriptor?, Types.fresh]
  null := by
    rintro heq
    have hlt := Types.index_lt_of_descriptor? h.types.null
    rw [← heq] at hlt
    exact Nat.lt_irrefl _ hlt
  none := by
    rintro heq
    have hlt := Types.index_lt_of_descriptor? h.types.none
    rw [← heq] at hlt
    exact Nat.lt_irrefl _ hlt
  unknown := fun k hk => by
    obtain ⟨-, ids, hids⟩ := h.types.object hk
    exact Nat.lt_irrefl _ (Types.index_lt_of_descriptor? hids)

/-- The classes with handles, and those with fields, are declared in the innermost scope. -/
structure Static.Context.Owns (Γ : Context) (ρ : Classes) : Prop where
  handles : ∀ m, ρ m ≠ none → Γ.scope.lookup m ≠ none
  fields : ∀ m, Γ.classes.lookup m ≠ none → Γ.scope.lookup m ≠ none

theorem Static.Context.Owns.record (h : Γ.Owns ρ) (n : String) (a : TypeId)
    (fields : Static.Scope) :
    Context.Owns { Γ.declare n (.type (.object n)) with classes := (n, fields) :: Γ.classes }
      fun m => if m = n then some a else ρ m := by
  have hadd : ∀ m, Γ.scope.lookup m ≠ none →
      (Γ.scope ++ [(n, Denotation.type (.object n))]).lookup m ≠ none := fun m hm => by
    rw [List.lookup_append]
    exact fun hnone => hm (Option.or_eq_none_iff.1 hnone).1
  have hself : (Γ.scope ++ [(n, Denotation.type (.object n))]).lookup n ≠ none := by
    simp [List.lookup_append]
  refine ⟨fun m hm => ?_, fun m hm => ?_⟩
  · by_cases hmn : m = n
    · exact hmn ▸ hself
    · exact hadd m (h.handles m (by simpa [hmn] using hm))
  · by_cases hmn : m = n
    · exact hmn ▸ hself
    · exact hadd m (h.fields m (by simpa [List.lookup_cons, beq_eq_false_iff_ne.2 hmn] using hm))

theorem Static.Context.Owns.extend (h : Γ.Owns ρ) (Δ : Static.Scope) :
    Context.Owns { Γ with scope := Γ.scope ++ Δ } ρ := by
  have hadd : ∀ m, Γ.scope.lookup m ≠ none → (Γ.scope ++ Δ).lookup m ≠ none := fun m hm => by
    rw [List.lookup_append]
    exact fun hnone => hm (Option.or_eq_none_iff.1 hnone).1
  exact ⟨fun m hm => hadd m (h.handles m hm), fun m hm => hadd m (h.fields m hm)⟩

theorem Pending.asClass (h : Pending ρ Γ t₀ id ⟨n, i, .typeName⟩ k) (hi : IsNew ρ i t₀)
    (hΓ : Γ.Owns ρ) (hn : Γ.IsFresh n) :
    k.Agrees (fun m => if m = n then some i else ρ m) (Γ.declare n (.type (.object n))) := by
  have hρ : ρ n = none := by
    by_contra hne
    exact hΓ.handles n hne hn
  have hfields : Γ.classes.lookup n = none := by
    by_contra hne
    exact hΓ.fields n hne hn
  let ρ' : Classes := fun m => if m = n then some i else ρ m
  have htable : t₀.Agrees ρ' Γ :=
    h.agrees.table.newClass hρ (by rw [hfields]; rfl) hi.descriptor hi.null hi.unknown
  have hresult : t₀.types.HasType ρ' Γ.result k.returnType := by
    refine h.agrees.result.mono (fun m j hm => ?_) fun _ _ h => h
    have hne : m ≠ n := by
      rintro rfl
      simp [hρ] at hm
    exact (if_neg hne).trans hm
  have hpending : Pending ρ' Γ t₀ id ⟨n, i, .typeName⟩ k :=
    ⟨⟨htable, hresult, h.agrees.names, h.agrees.sound, h.agrees.predeclared⟩, h.fresh, h.id, h.table⟩
  have hmeans : (t₀.bind ⟨n, i, .typeName⟩).2.Means ρ' ⟨n, i, .typeName⟩ (.type (.object n)) :=
    ⟨rfl, if_pos rfl⟩
  refine hpending.declared hmeans hi.none ?_
  rintro _ ⟨⟩
  exact .inr (.inr ⟨n, rfl⟩)

/-- The session knows what the context declares. -/
def Knows (Γ : Context) (k : Knowledge) : Prop := ∃ ρ, k.Agrees ρ Γ ∧ Γ.Owns ρ

end MicroJava
