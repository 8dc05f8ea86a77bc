import MicroJava.Proofs.Declare
import MicroJava.Proofs.Denoting

/-!
# Scopes that agree

A symbol table goes on agreeing with a context when a name is declared in both
(`SymbolTable.Agrees.bind`), a scope is opened or closed, a class is declared or gets its fields. While a
method is read, the scopes around its own are those in which it is declared (`SymbolTable.Around`); what
is known of the method may change there.
-/

namespace MicroJava

open Static

def Entry.isVariable (e : Entry) : Bool :=
  match e.meaning with
  | .var .. => true
  | _ => false

theorem Static.Scope.mem_of_lookup {Δ : Static.Scope} {n : String} {x : Denotation}
    (h : Δ.lookup n = some x) : (n, x) ∈ Δ := by
  induction Δ with
  | nil => contradiction
  | cons b Δ ih =>
    rw [List.lookup_cons] at h
    split at h
    · next hn =>
      rw [eq_of_beq hn, ← Option.some.inj h]
      exact List.mem_cons_self
    · exact List.mem_cons_of_mem b (ih h)

namespace SymbolTable

/-! ### Open scopes -/

/-- The open scopes, from the inside out. -/
def scopes (t : SymbolTable) : List Scope := t.inner ++ [t.outermost]

variable {ρ ρ' : Classes} {Γ : Context} {t t' t₀ : SymbolTable} {e : Entry} {n : String}
  {id i : EntryId} {x : Denotation} {f : Entry → Entry}

theorem scopes_eq (t : SymbolTable) : t.scopes = t.current :: t.scopes.tail := by
  rcases t with ⟨entries, types, _ | ⟨s, outer⟩, outermost⟩ <;> rfl

theorem scopes_openScope (t : SymbolTable) : t.openScope.scopes = .empty :: t.scopes := rfl

theorem scopes_closeScope (h : t.inner ≠ []) : t.closeScope.2.scopes = t.scopes.tail := by
  rcases t with ⟨entries, types, _ | ⟨s, outer⟩, outermost⟩
  · exact absurd rfl h
  · rfl

theorem scopes_bind (t : SymbolTable) (e : Entry) :
    (t.bind e).2.scopes = t.current.insert e.name ⟨t.entries.size⟩ e.isVariable :: t.scopes.tail := by
  rcases t with ⟨entries, types, _ | ⟨s, outer⟩, outermost⟩ <;> rfl

theorem closeScope_update (t : SymbolTable) (i : EntryId) (f : Entry → Entry) :
    (t.update i f).closeScope.2 = t.closeScope.2.update i f := by
  have hchange : t.closeScope.2.changeable i = t.changeable i := by
    rw [changeable, entries_closeScope, changeable]
  rw [update, update, hchange]
  split
  · rcases t with ⟨entries, types, _ | ⟨s, outer⟩, outermost⟩ <;> rfl
  · rfl

theorem scopes_update (t : SymbolTable) (i : EntryId) (f : Entry → Entry) :
    (t.update i f).scopes = t.scopes := by
  rw [scopes, inner_update, outermost_update, scopes]

theorem Adds.scopes_tail (h : t.Adds t') (hne : t.inner ≠ []) : t'.scopes.tail = t.scopes.tail := by
  have hne' : t'.inner ≠ [] := fun hnil => by
    have hlevel := h.level
    rw [hnil] at hlevel
    exact hne (List.length_eq_zero_iff.1 hlevel.symm)
  rw [scopes, scopes, List.tail_append_of_ne_nil hne', List.tail_append_of_ne_nil hne, h.tail,
    h.outermost hne]

theorem Adds.predeclared (h : t.Adds t') (hp : t.Predeclared) : t'.Predeclared := by
  intro id hid
  have := hp.size_le
  rw [h.old id (by omega), hp id hid]

theorem Adds.below (h : t.Adds t') : Below ρ ρ t t' where
  entries := fun id e he => by rwa [h.old id (t.index_lt_of_entryAt? he)]
  classes := fun _ _ => id
  arrays := h.arrays

theorem Below.trans {t'' : SymbolTable} (h : Below ρ ρ t t') (h' : Below ρ ρ t' t'') :
    Below ρ ρ t t'' where
  entries := fun id e he => h'.entries id e (h.entries id e he)
  classes := fun _ _ => id
  arrays := fun i e he => h'.arrays i e (h.arrays i e he)

/-! ### Entries that change -/

theorem Means.isVariable (h : t.Means ρ e x) : e.isVariable = x.isVariable := by
  unfold Entry.isVariable
  cases x with
  | «variable» τ =>
    obtain ⟨⟨slot, level, hm⟩, -⟩ := h
    rw [hm]
    rfl
  | method σ =>
    obtain ⟨m, hm, -⟩ := h
    rw [hm]
    rfl
  | program =>
    obtain ⟨members, hm⟩ := h
    rw [hm]
    rfl
  | _ =>
    rw [h.1]
    rfl

/-- What an entry means does not change with other entries, as long as those keep their types. -/
theorem Means.update (h : t.Means ρ e x) (hf : ∀ e, (f e).type = e.type) :
    (t.update i f).Means ρ e x := by
  cases x with
  | method σ =>
    obtain ⟨m, hm, hresult, hσ⟩ := h
    refine ⟨m, hm, by rwa [types_update], hσ.variadic, hσ.count, hσ.leading.imp ?_⟩
    rintro id τ ⟨e', he', hτ⟩
    rw [types_update, entryAt?_update, he']
    split
    · exact ⟨_, rfl, by rwa [hf]⟩
    · exact ⟨_, rfl, hτ⟩
  | program => exact h
  | _ => exact ⟨h.1, by rw [types_update]; exact h.2⟩

theorem Binds.update_of_ne (h : t.Binds ρ id n x) (hf : ∀ e, (f e).type = e.type) (hne : id ≠ i) :
    (t.update i f).Binds ρ id n x := by
  obtain ⟨hid, e, he, hn, hx⟩ := h
  refine ⟨hid, e, ?_, hn, hx.update hf⟩
  rw [entryAt?_update, if_neg fun h => hne h.1, he]

/-- The entry of a variable is not that of a method. -/
theorem Binds.ne_of_method {m : String} {σ : Signature} (h : t.Binds ρ id n x) (hx : x.isVariable)
    (h' : t.Binds ρ i m (.method σ)) : id ≠ i := by
  rintro rfl
  obtain ⟨-, e, he, -, hmeans⟩ := h
  obtain ⟨-, e', he', -, hmeans'⟩ := h'
  obtain rfl := Option.some.inj (he.symm.trans he')
  have := hmeans.isVariable.symm.trans hmeans'.isVariable
  rw [hx] at this
  simp [ Denotation.isVariable] at this

/-! ### Declarations -/

namespace Agrees

theorem isFresh_iff (h : t.Agrees ρ Γ) : Γ.IsFresh n ↔ t.current.find? n = none := by
  have hscopes : List.Forall₂ (fun sc Δ => sc.Agrees ρ t Δ) t.scopes (Γ.scope :: Γ.around) := h.scopes
  rw [scopes_eq] at hscopes
  cases hscopes with
  | cons hs _ =>
    refine ⟨fun hfresh => ?_, hs.fresh n⟩
    rcases hfind : t.current.find? n with _ | id
    · rfl
    · obtain ⟨x, hx, -⟩ := hs.found n id hfind
      rw [Context.IsFresh, hx] at hfresh
      contradiction

theorem current (h : t.Agrees ρ Γ) : t.current.Agrees ρ t Γ.scope := by
  have hscopes : List.Forall₂ (fun sc Δ => sc.Agrees ρ t Δ) t.scopes (Γ.scope :: Γ.around) := h.scopes
  rw [scopes_eq] at hscopes
  exact (List.forall₂_cons.1 hscopes).1

theorem around (h : t.Agrees ρ Γ) :
    List.Forall₂ (fun sc Δ => sc.Agrees ρ t Δ) t.scopes.tail Γ.around := by
  have hscopes : List.Forall₂ (fun sc Δ => sc.Agrees ρ t Δ) t.scopes (Γ.scope :: Γ.around) := h.scopes
  rw [scopes_eq] at hscopes
  exact (List.forall₂_cons.1 hscopes).2

theorem of_scopes (hm : t.types.Models ρ) (hs : t.current.Agrees ρ t Γ.scope)
    (ha : List.Forall₂ (fun sc Δ => sc.Agrees ρ t Δ) t.scopes.tail Γ.around)
    (hc : ∀ k i, ρ k = some i → ∃ ids, t.types.descriptor? i = some (.object ids) ∧
      List.Forall₂ (fun id b => t.Binds ρ id b.1 b.2 ∧ b.2.isVariable) ids
        ((Γ.classes.lookup k).getD [])) : t.Agrees ρ Γ := by
  refine ⟨hm, ?_, hc⟩
  have hscopes : List.Forall₂ (fun sc Δ => sc.Agrees ρ t Δ) t.scopes (Γ.scope :: Γ.around) := by
    rw [scopes_eq]
    exact .cons hs ha
  exact hscopes

/-- The fields of the classes stay what they are. -/
theorem classes_mono (h : t.Agrees ρ Γ) (hb : Below ρ ρ t t') (ht : t'.types = t.types) (k : String)
    (i : TypeId) (hk : ρ k = some i) : ∃ ids, t'.types.descriptor? i = some (.object ids) ∧
      List.Forall₂ (fun id b => t'.Binds ρ id b.1 b.2 ∧ b.2.isVariable) ids
        ((Γ.classes.lookup k).getD []) := by
  obtain ⟨ids, hids, hfields⟩ := h.classes k i hk
  exact ⟨ids, by rwa [ht], hfields.imp fun _ _ hb' => ⟨hb'.1.mono hb, hb'.2⟩⟩

/-- Where a name is declared, the scopes agree with those of the context. -/
theorem outer (h : t₀.Agrees ρ Γ) (hfresh : t₀.current.find? n = none) (hb : Below ρ ρ t₀ t)
    (hx : t.Binds ρ ⟨t₀.entries.size⟩ n x) :
    List.Forall₂ (fun sc Δ => sc.Agrees ρ t Δ)
      (t₀.current.insert n ⟨t₀.entries.size⟩ x.isVariable :: t₀.scopes.tail)
      ((Γ.declare n x).scope :: Γ.around) :=
  .cons ((h.current.mono hb).insert hfresh hx) (h.around.imp fun _ _ hs => hs.mono hb)

theorem below_bind (t : SymbolTable) (e : Entry) : Below ρ ρ t (t.bind e).2 where
  entries := fun id e' he' => by
    have hlt := t.index_lt_of_entryAt? he'
    rw [entryAt?_bind, if_neg (by rintro rfl; exact Nat.lt_irrefl _ hlt), he']
  classes := fun _ _ => id
  arrays := fun _ _ he => by rwa [types_bind]

theorem bind (h : t.Agrees ρ Γ) (hfresh : t.current.find? e.name = none)
    (hid : (⟨t.entries.size⟩ : EntryId) ≠ .none) (hx : (t.bind e).2.Means ρ e x) :
    (t.bind e).2.Agrees ρ (Γ.declare e.name x) := by
  have hbelow : Below ρ ρ t (t.bind e).2 := below_bind t e
  have hbinds : (t.bind e).2.Binds ρ ⟨t.entries.size⟩ e.name x :=
    ⟨hid, e, by rw [entryAt?_bind, if_pos rfl], rfl, hx⟩
  refine ⟨by rw [types_bind]; exact h.types, ?_, h.classes_mono hbelow (t.types_bind e)⟩
  have hscopes := h.outer hfresh hbelow hbinds
  rw [← hx.isVariable, ← scopes_bind] at hscopes
  exact hscopes

/-- A predeclared method has one parameter, which no scope binds. -/
theorem bindBuiltin (h : t.Agrees ρ Γ) {r τ : Ty} {a b : TypeId} (parameter : String)
    (hfresh : t.current.find? n = none) (hr : t.types.HasType ρ r a)
    (hτ : t.types.HasType ρ τ b) :
    (t.bindBuiltin n a parameter b).Agrees ρ (Γ.declare n (.method ⟨r, [τ], none⟩)) := by
  let e : Entry := ⟨parameter, b, .var 0 t.level⟩
  have hbelow : Below ρ ρ t (t.allocate e).2 := by
    refine ⟨fun id e' he => ?_, fun _ _ h => h, fun _ _ h => h⟩
    have hlt := t.index_lt_of_entryAt? he
    rw [entryAt?, allocate, Array.getElem?_push_lt hlt]
    exact (Array.getElem?_eq_getElem hlt).symm.trans he
  have hallocate : (t.allocate e).2.Agrees ρ Γ :=
    ⟨h.types, h.scopes.imp fun _ _ hs => hs.mono hbelow, h.classes_mono hbelow rfl⟩
  let method : Method := { parameters := 1, locals := [⟨t.entries.size⟩] }
  have hmeans : ((t.allocate e).2.bind ⟨n, a, .method method⟩).2.Means ρ ⟨n, a, .method method⟩
      (.method ⟨r, [τ], none⟩) := by
    refine ⟨method, rfl, by rw [types_bind]; exact hr, rfl, rfl, .cons ⟨e, ?_, ?_⟩ .nil⟩
    · rw [entryAt?_bind, if_neg (by simp [allocate])]
      simp [allocate, entryAt?]
    · rw [types_bind]
      exact hτ
  have hfresh' : (t.allocate e).2.current.find? n = none := hfresh
  exact hallocate.bind hfresh' (by simp [allocate, EntryId.none]) hmeans

theorem openScope (h : t.Agrees ρ Γ) : t.openScope.Agrees ρ (Γ.enter []) := by
  have hbelow : Below ρ ρ t t.openScope := ⟨fun _ _ => id, fun _ _ => id, fun _ _ => id⟩
  exact ⟨h.types, .cons .empty (h.scopes.imp fun _ _ hs => hs.mono hbelow),
    h.classes_mono hbelow rfl⟩

theorem inner_ne_nil (h : t.Agrees ρ Γ) (hΓ : Γ.around ≠ []) : t.inner ≠ [] := by
  intro hnil
  have hlength := h.scopes.length_eq
  rw [hnil] at hlength
  exact hΓ (List.length_eq_zero_iff.1 (by simpa using hlength.symm))

theorem below_closeScope (t : SymbolTable) : Below ρ ρ t t.closeScope.2 where
  entries := fun id e he => by rwa [entryAt?, entries_closeScope]
  classes := fun _ _ => id
  arrays := fun _ _ he => by rwa [types_closeScope]

theorem closeScope (h : t.Agrees ρ Γ) {Δ : Static.Scope} {around : List Static.Scope}
    (hΓ : Γ.around = Δ :: around) : t.closeScope.2.Agrees ρ { Γ with scope := Δ, around } := by
  have hbelow : Below ρ ρ t t.closeScope.2 := below_closeScope t
  refine ⟨by rw [types_closeScope]; exact h.types, ?_,
    h.classes_mono hbelow (types_closeScope t)⟩
  have hscopes := h.around.imp fun _ _ hs => Scope.Agrees.mono hbelow hs
  rw [← scopes_closeScope (h.inner_ne_nil (by simp [hΓ])), hΓ] at hscopes
  exact hscopes

end Agrees

/-! ### Classes -/

/-- A class that has no handle yet gets one. -/
theorem Agrees.newClass (h : t.Agrees ρ Γ) {a : TypeId} (hn : ρ n = none)
    (hfields : (Γ.classes.lookup n).getD [] = []) (ha : t.types.descriptor? a = some (.object []))
    (hnull : a ≠ .null) (hnew : ∀ k, ρ k ≠ some a) :
    t.Agrees (fun k => if k = n then some a else ρ k) Γ := by
  have hbelow : Below ρ (fun k => if k = n then some a else ρ k) t t := by
    refine ⟨fun _ _ => id, fun k i hk => ?_, fun _ _ => id⟩
    rwa [if_neg (by rintro rfl; simp [hn] at hk)]
  refine ⟨⟨h.types.none, h.types.int, h.types.char, h.types.null, fun {k t'} hk => ?_,
    fun {k k' t'} hk hk' => ?_⟩, h.scopes.imp fun _ _ hs => hs.mono hbelow, fun k i hk => ?_⟩
  · split at hk
    · obtain rfl := Option.some.inj hk
      exact ⟨hnull, [], ha⟩
    · exact h.types.object hk
  · split at hk
    · next heq =>
      obtain rfl := Option.some.inj hk
      split at hk'
      · next heq' => rw [heq, heq']
      · exact absurd hk' (hnew _)
    · split at hk'
      · obtain rfl := Option.some.inj hk'
        exact absurd hk (hnew _)
      · exact h.types.injective hk hk'
  · split at hk
    · next heq =>
      obtain rfl := Option.some.inj hk
      rw [heq, hfields]
      exact ⟨[], ha, .nil⟩
    · obtain ⟨ids, hids, hf⟩ := h.classes k i hk
      exact ⟨ids, hids, hf.imp fun _ _ hb => ⟨hb.1.mono hbelow, hb.2⟩⟩

/-- A class gets its fields. -/
theorem Agrees.setFields (h : t.Agrees ρ Γ) {a : TypeId} {ids : List EntryId}
    {fields : Static.Scope} (hn : ρ n = some a)
    (hfields : List.Forall₂ (fun id b => t.Binds ρ id b.1 b.2 ∧ b.2.isVariable) ids fields) :
    (t.setFields a ids).Agrees ρ { Γ with classes := (n, fields) :: Γ.classes } := by
  have hbelow : Below ρ ρ t (t.setFields a ids) :=
    ⟨fun _ _ => id, fun _ _ => id, fun i e => Types.array_setFields a ids i e⟩
  have hne := (h.types.object hn).1
  have hdescriptor : ∀ i, i ≠ a →
      (t.types.setFields a ids).descriptor? i = t.types.descriptor? i := fun i hi => by
    rw [Types.descriptor?_setFields, if_neg fun h => hi h.1]
  have hown : (t.types.setFields a ids).descriptor? a = some (.object ids) := by
    obtain ⟨-, ids', hids'⟩ := h.types.object hn
    rw [Types.descriptor?_setFields, if_pos ⟨rfl, hne⟩, hids']
    rfl
  have hbase : ∀ i d, t.types.descriptor? i = some d → (∀ ids, d ≠ .object ids) →
      (t.types.setFields a ids).descriptor? i = some d := fun i d hd hobject => by
    rw [hdescriptor i, hd]
    rintro rfl
    obtain ⟨-, ids', hids'⟩ := h.types.object hn
    exact hobject ids' (Option.some.inj (hd.symm.trans hids'))
  refine ⟨⟨hbase _ _ h.types.none (by simp), hbase _ _ h.types.int (by simp),
    hbase _ _ h.types.char (by simp), ?_, fun {k t'} hk => ?_, h.types.injective⟩,
    h.scopes.imp fun _ _ hs => hs.mono hbelow, fun k i hk => ?_⟩
  · rw [SymbolTable.setFields, hdescriptor _ hne.symm]
    exact h.types.null
  · obtain ⟨hnull, ids', hids'⟩ := h.types.object hk
    refine ⟨hnull, ?_⟩
    by_cases ht : t' = a
    · exact ⟨ids, by rw [ht]; exact hown⟩
    · exact ⟨ids', by rw [SymbolTable.setFields, hdescriptor _ ht, hids']⟩
  · by_cases hkn : k = n
    · subst hkn
      obtain rfl := Option.some.inj (hn.symm.trans hk)
      refine ⟨ids, hown, ?_⟩
      rw [List.lookup_cons, beq_self_eq_true]
      exact hfields.imp fun _ _ hb => ⟨hb.1.mono hbelow, hb.2⟩
    · obtain ⟨ids', hids', hf⟩ := h.classes k i hk
      have hi : i ≠ a := by
        rintro rfl
        exact hkn (h.types.injective hk hn)
      refine ⟨ids', by rw [SymbolTable.setFields, hdescriptor _ hi, hids'], ?_⟩
      rw [List.lookup_cons, beq_eq_false_iff_ne.2 hkn]
      exact hf.imp fun _ _ hb => ⟨hb.1.mono hbelow, hb.2⟩

/-! ### Inside a method -/

/-- Around the innermost scope are those of `t₀`, in which the method is declared. -/
structure Around (ρ : Classes) (t₀ : SymbolTable) (n : String) (σ : Signature) (t : SymbolTable) :
    Prop where
  below : Below ρ ρ t₀ t
  scopes : t.scopes.tail = t₀.current.insert n ⟨t₀.entries.size⟩ false :: t₀.scopes.tail
  method : t.Binds ρ ⟨t₀.entries.size⟩ n (.method σ)

namespace Around

variable {σ σ' : Signature}

theorem adds (h : Around ρ t₀ n σ t) (ha : t.Adds t') : Around ρ t₀ n σ t' where
  below := h.below.trans ha.below
  scopes := by
    rw [ha.scopes_tail, h.scopes]
    intro hnil
    have hscopes := h.scopes
    rw [SymbolTable.scopes, hnil] at hscopes
    contradiction
  method := h.method.mono ha.below

theorem widens (h : Around ρ t₀ n σ t) (hw : t.Widens t') : Around ρ t₀ n σ t' where
  below := h.below.trans hw.below
  scopes := by
    obtain ⟨types, rfl, -⟩ := hw
    exact h.scopes
  method := h.method.mono hw.below

/-- What is known of the method itself may change. -/
theorem update (h : Around ρ t₀ n σ t) {f : Entry → Entry}
    (hx : (t.update ⟨t₀.entries.size⟩ f).Binds ρ ⟨t₀.entries.size⟩ n (.method σ')) :
    Around ρ t₀ n σ' (t.update ⟨t₀.entries.size⟩ f) where
  below := ⟨fun id e he => by
    have hlt := t₀.index_lt_of_entryAt? he
    rw [entryAt?_update, if_neg (by rintro ⟨rfl, -⟩; exact Nat.lt_irrefl _ hlt), h.below.entries id e he],
    fun _ _ => id, fun i e he => by rw [types_update]; exact h.below.arrays i e he⟩
  scopes := by rw [scopes_update, h.scopes]
  method := hx

theorem outer (h : Around ρ t₀ n σ t) (h₀ : t₀.Agrees ρ Γ) (hfresh : t₀.current.find? n = none) :
    List.Forall₂ (fun sc Δ => sc.Agrees ρ t Δ) t.scopes.tail
      ((Γ.declare n (.method σ)).scope :: Γ.around) := by
  rw [h.scopes]
  exact h₀.outer hfresh h.below h.method

/-- Inside the method, what is known of it may change. -/
theorem agrees_update (h : Around ρ t₀ n σ t) (h₀ : t₀.Agrees ρ Γ)
    (hfresh : t₀.current.find? n = none) {Δ : Static.Scope} (hΔ : ∀ b ∈ Δ, b.2.isVariable)
    (ht : t.Agrees ρ (Γ.enterMethod n σ Δ)) {f : Entry → Entry} (hf : ∀ e, (f e).type = e.type)
    (hx : (t.update ⟨t₀.entries.size⟩ f).Binds ρ ⟨t₀.entries.size⟩ n (.method σ')) :
    (t.update ⟨t₀.entries.size⟩ f).Agrees ρ (Γ.enterMethod n σ' Δ) := by
  have hkept : ∀ {id m x}, t.Binds ρ id m x → x.isVariable →
      (t.update ⟨t₀.entries.size⟩ f).Binds ρ id m x := fun hb hvar =>
    hb.update_of_ne hf (hb.ne_of_method hvar h.method)
  have hcurrent : (t.update ⟨t₀.entries.size⟩ f).current = t.current := by
    rw [SymbolTable.current, inner_update, outermost_update, SymbolTable.current]
  refine .of_scopes (by rw [types_update]; exact ht.types) ?_ ((h.update hx).outer h₀ hfresh) ?_
  · have hs : t.current.Agrees ρ t Δ := ht.current
    rw [hcurrent]
    refine ⟨?_, fun m id hid => ?_, hs.fresh, hs.count⟩
    · refine List.forall₂_iff_zip.2 ⟨hs.locals.length_eq, fun {id b} hmem => ?_⟩
      exact hkept (List.forall₂_zip hs.locals hmem) (hΔ b (List.of_mem_zip hmem).2)
    · obtain ⟨x, hx, hb⟩ := hs.found m id hid
      exact ⟨x, hx, hkept hb (hΔ (m, x) (Static.Scope.mem_of_lookup hx))⟩
  · intro k i hk
    obtain ⟨ids, hids, hfields⟩ := ht.classes k i hk
    exact ⟨ids, by rwa [types_update], hfields.imp fun _ _ hb => ⟨hkept hb.1 hb.2, hb.2⟩⟩

end Around

end SymbolTable

end MicroJava
