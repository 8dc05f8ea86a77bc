import Mathlib.Data.List.Find
import Mathlib.Data.List.Forall2
import MicroJava.Symbol.Table

/-!
# Symbol tables under a renaming

A `Renaming` says which names of two texts correspond. It is one-to-one, and fixes the names of the
language and that of the entry method. Two tables that differ by a renaming only
(`SymbolTable.Alike`) give the same answers to corresponding questions, and stay alike when
corresponding names are declared.
-/

namespace MicroJava

/-- The names that the universe declares. -/
def languageNames : List String := ["int", "char", "null", "chr", "ord", "len"]

/-- Which names of two texts correspond. The empty name, which a mistake leaves behind, is no name of
either text. -/
structure Renaming (entryName : String) where
  rel : String → String → Prop
  oneToOne : ∀ {a a' b b'}, rel a a' → rel b b' → (a = b ↔ a' = b')
  empty : rel "" ""
  language : ∀ n ∈ languageNames, rel n n
  entry : rel entryName entryName

variable {entryName : String} {R : Renaming entryName}

/-- The entry was declared by the program. -/
def EntryId.Declared (id : EntryId) : Prop := SymbolTable.initial.entries.size ≤ id.index

/-- The scopes declare corresponding names for the same entries. -/
structure Scope.Alike (R : Renaming entryName) (s s' : Scope) : Prop where
  find : ∀ n n', R.rel n n' → s.find? n = s'.find? n'
  locals : s'.locals = s.locals
  variableCount : s'.variableCount = s.variableCount

namespace Scope

theorem Alike.empty : Scope.Alike R .empty .empty := ⟨by simp, rfl, rfl⟩

theorem Alike.insert {s s' : Scope} (h : s.Alike R s') {n n' : String} (hn : R.rel n n')
    (id : EntryId) (b : Bool) : (s.insert n id b).Alike R (s'.insert n' id b) where
  find := by
    intro m m' hm
    simp only [find?_insert, R.oneToOne hn hm, h.find m m' hm]
  locals := by simp [h.locals]
  variableCount := by simp [Scope.insert, h.variableCount]

end Scope

namespace SymbolTable

/-- The tables differ in names only, and the names that the program has declared correspond. -/
structure Alike (R : Renaming entryName) (t t' : SymbolTable) : Prop where
  types : t'.types = t.types
  size : t'.entries.size = t.entries.size
  entry : ∀ id e, t.entryAt? id = some e →
    ∃ n, t'.entryAt? id = some { e with name := n } ∧ (id.Declared → R.rel e.name n)
  inner : List.Forall₂ (Scope.Alike R) t.inner t'.inner
  outermost : t.outermost.Alike R t'.outermost
  grown : initial.entries.size ≤ t.entries.size
  locals : ∀ s ∈ t.inner, ∀ id ∈ s.locals, id.Declared
  fields : ∀ type, ∀ id ∈ t.types.fields type, id.Declared

/-- The entry is changed in the same way whatever its name is. -/
def Nameless (f : Entry → Entry) : Prop :=
  ∀ e n, f { e with name := n } = { f e with name := n }

theorem Nameless.name {f : Entry → Entry} (hf : Nameless f) (e : Entry) : (f e).name = e.name :=
  (congrArg Entry.name (hf e e.name) :)

namespace Alike

variable {t t' : SymbolTable} {n n' : String}

theorem initial : SymbolTable.initial.Alike R SymbolTable.initial where
  types := rfl
  size := rfl
  entry := by
    intro id e he
    refine ⟨e.name, he, fun hid => ?_⟩
    obtain ⟨hlt, -⟩ := Array.getElem?_eq_some_iff.1 he
    exact absurd hlt (Nat.not_lt.2 hid)
  inner := .nil
  outermost := by
    have houtermost : SymbolTable.initial.outermost = ((((((Scope.empty.insert "int" ⟨1⟩ false).insert "char" ⟨2⟩
        false).insert "null" ⟨3⟩ false).insert "chr" ⟨5⟩ false).insert "ord" ⟨7⟩ false).insert "len" ⟨9⟩
          false) := rfl
    rw [houtermost]
    have hfix : ∀ n, n ∈ languageNames → R.rel n n := R.language
    simp only [languageNames, List.forall_mem_cons] at hfix
    obtain ⟨hint, hchar, hnull, hchr, hord, hlen, -⟩ := hfix
    exact .insert (.insert (.insert (.insert (.insert (.insert .empty hint _ _) hchar _ _) hnull _ _)
      hchr _ _) hord _ _) hlen _ _
  grown := Nat.le_refl _
  locals := by
    intro s hs
    cases hs
  fields := by
    intro type id hid
    have hnone : ∀ i < SymbolTable.initial.types.descriptors.size,
        SymbolTable.initial.types.fields ⟨i⟩ = [] := by decide
    by_cases hlt : type.index < SymbolTable.initial.types.descriptors.size
    · have hid : id ∈ SymbolTable.initial.types.fields ⟨type.index⟩ := hid
      rw [hnone type.index hlt] at hid
      cases hid
    · rw [Types.fields, Types.descriptor?, Array.getElem?_eq_none (Nat.not_lt.1 hlt)] at hid
      cases hid

theorem current (h : t.Alike R t') : t.current.Alike R t'.current := by
  have hinner := h.inner
  unfold SymbolTable.current
  generalize t.inner = ss at hinner
  generalize t'.inner = ss' at hinner
  cases hinner with
  | nil => exact h.outermost
  | cons hs => exact hs

theorem level (h : t.Alike R t') : t'.level = t.level := h.inner.length_eq.symm

/-! ### Questions -/

theorem entryAt?_none (h : t.Alike R t') {id : EntryId} (he : t.entryAt? id = none) :
    t'.entryAt? id = none := by
  rw [entryAt?, Array.getElem?_eq_none_iff] at he ⊢
  exact h.size ▸ he

theorem lookup? (h : t.Alike R t') (hn : R.rel n n') : t.lookup? n = t'.lookup? n' := by
  have hinner : t.inner.findSome? (·.find? n) = t'.inner.findSome? (·.find? n') := by
    have hinner := h.inner
    generalize t.inner = ss at hinner
    generalize t'.inner = ss' at hinner
    induction hinner with
    | nil => rfl
    | cons hs _ ih => simp only [List.findSome?_cons, hs.find n n' hn, ih]
  rw [SymbolTable.lookup?, SymbolTable.lookup?, hinner, h.outermost.find n n' hn]

theorem find (h : t.Alike R t') (hn : R.rel n n') : t.find n = t'.find n' := by
  rw [SymbolTable.find, SymbolTable.find, h.lookup? hn]

theorem findField (h : t.Alike R t') (hn : R.rel n n') (type : TypeId) :
    t.findField n type = t'.findField n' type := by
  have hfind : (t.types.fields type).find? (fun id => (t.entryAt? id).any (·.name == n)) =
      (t.types.fields type).find? fun id => (t'.entryAt? id).any (·.name == n') := by
    refine List.find?_congr fun id hid => ?_
    rcases he : t.entryAt? id with _ | e
    · rw [h.entryAt?_none he]
      rfl
    · obtain ⟨m, he', hm⟩ := h.entry id e he
      rw [he']
      simp only [Option.any_some, Bool.beq_eq_decide_eq, R.oneToOne (hm (h.fields type id hid)) hn]
  rw [SymbolTable.findField, SymbolTable.findField, hfind, h.types]

/-! ### Changes -/

/-- A new entry under corresponding names. -/
theorem bind (h : t.Alike R t') (hn : R.rel n n') (type : TypeId) (meaning : Meaning) :
    (t.bind ⟨n, type, meaning⟩).1 = (t'.bind ⟨n', type, meaning⟩).1 ∧
      (t.bind ⟨n, type, meaning⟩).2.Alike R (t'.bind ⟨n', type, meaning⟩).2 := by
  obtain ⟨entries, types, inner, outermost⟩ := t
  obtain ⟨entries', types', inner', outermost'⟩ := t'
  obtain ⟨htypes, hsize, hentry, hinner, houtermost, hgrown, hlocals, hfields⟩ := h
  simp only at htypes hsize hinner houtermost hgrown hlocals hfields
  subst htypes
  have hentry' : ∀ id e, (entries.push ⟨n, type, meaning⟩)[id.index]? = some e →
      ∃ m, (entries'.push ⟨n', type, meaning⟩)[id.index]? = some { e with name := m } ∧
        (EntryId.Declared id → R.rel e.name m) := by
    intro id e he
    rw [Array.getElem?_push] at he ⊢
    rw [hsize]
    split at he
    · next hid =>
      obtain rfl := Option.some.inj he
      exact ⟨n', by rw [if_pos hid], fun _ => hn⟩
    · next hid =>
      rw [if_neg hid]
      exact hentry id e he
  have hgrown' : SymbolTable.initial.entries.size ≤ (entries.push ⟨n, type, meaning⟩).size := by
    rw [Array.size_push]
    omega
  have hpush : (entries'.push ⟨n', type, meaning⟩).size =
      (entries.push ⟨n, type, meaning⟩).size := by
    simp [hsize]
  have hid : (⟨entries.size⟩ : EntryId) = ⟨entries'.size⟩ := by rw [hsize]
  have hinsert : ∀ {s s' : Scope} (b : Bool), s.Alike R s' →
      (s.insert n ⟨entries.size⟩ b).Alike R (s'.insert n' ⟨entries'.size⟩ b) :=
    fun b hs => hid ▸ hs.insert hn _ b
  cases hinner with
  | nil =>
    exact ⟨hid, rfl, hpush, hentry', .nil, hinsert _ houtermost, hgrown',
      fun _ hs => absurd hs List.not_mem_nil, hfields⟩
  | cons hs hrest =>
    refine ⟨hid, rfl, hpush, hentry', .cons (hinsert _ hs) hrest, houtermost, hgrown',
      fun s' hs' id hid' => ?_, hfields⟩
    rcases List.mem_cons.1 hs' with rfl | hs'
    · rcases Array.mem_push.1 hid' with hid' | rfl
      · exact hlocals _ (by simp) id hid'
      · exact hgrown
    · exact hlocals s' (by simp [hs']) id hid'

theorem declare (h : t.Alike R t') (hn : R.rel n n') (category : Category) (type : TypeId) :
    (t.declare category n type).1 = (t'.declare category n' type).1 ∧
      (t.declare category n type).2.Alike R (t'.declare category n' type).2 := by
  have hmeaning : t'.meaningOf category = t.meaningOf category := by
    cases category <;> simp [meaningOf, h.level, h.current.variableCount]
  unfold SymbolTable.declare
  rw [← h.current.find n n' hn, hmeaning]
  split
  · exact ⟨rfl, h⟩
  · obtain ⟨hid, halike⟩ := h.bind hn type (t.meaningOf category)
    exact ⟨congrArg Except.ok hid, halike⟩

theorem update (h : t.Alike R t') (id : EntryId) {f : Entry → Entry} (hf : Nameless f) :
    (t.update id f).Alike R (t'.update id f) := by
  have hchangeable : t'.changeable id = t.changeable id := by
    rw [changeable, changeable, h.size]
  unfold SymbolTable.update
  rw [hchangeable]
  split
  · refine ⟨h.types, by simp [h.size], fun id' e he => ?_, h.inner, h.outermost, by simp [h.grown],
      h.locals, h.fields⟩
    rw [entryAt?, Array.getElem?_modify] at he ⊢
    split at he
    · next hid =>
      rw [if_pos hid]
      obtain ⟨e₀, he₀, rfl⟩ := Option.map_eq_some_iff.1 he
      obtain ⟨m, he', hm⟩ := h.entry id' e₀ he₀
      exact ⟨m, by rw [show t'.entries[id'.index]? = _ from he', Option.map_some, hf],
        by rwa [hf.name]⟩
    · next hid =>
      rw [if_neg hid]
      exact h.entry id' e he
  · exact h

theorem openScope (h : t.Alike R t') : t.openScope.Alike R t'.openScope where
  types := h.types
  size := h.size
  entry := h.entry
  inner := .cons .empty h.inner
  outermost := h.outermost
  grown := h.grown
  locals := List.forall_mem_cons.2 ⟨fun id hid => absurd hid (Array.not_mem_empty id), h.locals⟩
  fields := h.fields

/-- The entries of a scope that is closed were declared by the program. -/
theorem closeScope (h : t.Alike R t') :
    t'.closeScope.1 = t.closeScope.1 ∧ (∀ id ∈ t.closeScope.1, id.Declared) ∧
      t.closeScope.2.Alike R t'.closeScope.2 := by
  obtain ⟨entries, types, inner, outermost⟩ := t
  obtain ⟨entries', types', inner', outermost'⟩ := t'
  obtain ⟨htypes, hsize, hentry, hinner, houtermost, hgrown, hlocals, hfields⟩ := h
  cases hinner with
  | nil => exact ⟨rfl, fun id hid => absurd hid List.not_mem_nil, htypes, hsize, hentry, .nil,
      houtermost, hgrown, hlocals, hfields⟩
  | cons hs hrest =>
    refine ⟨congrArg Array.toList hs.locals, fun id hid => ?_, htypes, hsize, hentry, hrest,
      houtermost, hgrown, fun s' hs' => hlocals s' (List.mem_cons_of_mem _ hs'), hfields⟩
    exact hlocals _ List.mem_cons_self id (Array.mem_toList_iff.1 hid)

/-- The types change, and their fields stay the program's. -/
theorem withTypes (h : t.Alike R t') {types : Types}
    (hfields : ∀ type, ∀ id ∈ types.fields type, id.Declared) :
    ({ t with types } : SymbolTable).Alike R { t' with types } :=
  ⟨rfl, h.size, h.entry, h.inner, h.outermost, h.grown, h.locals, hfields⟩

/-- A new type has no fields yet. -/
theorem fields_push (h : t.Alike R t') {d : Descriptor} (hd : d.fields = []) :
    ∀ type, ∀ id ∈ Types.fields ⟨t.types.descriptors.push d⟩ type, id.Declared := by
  intro type id hid
  rw [Types.fields, Types.descriptor?, Array.getElem?_push] at hid
  split at hid
  · rw [Option.elim_some, hd] at hid
    cases hid
  · exact h.fields type id hid

theorem arrayOf (h : t.Alike R t') (element : TypeId) :
    (t.arrayOf element).1 = (t'.arrayOf element).1 ∧
      (t.arrayOf element).2.Alike R (t'.arrayOf element).2 := by
  unfold SymbolTable.arrayOf
  rw [h.types]
  exact ⟨rfl, h.withTypes (h.fields_push rfl)⟩

theorem newClass (h : t.Alike R t') :
    t.newClass.1 = t'.newClass.1 ∧ t.newClass.2.Alike R t'.newClass.2 := by
  unfold SymbolTable.newClass
  rw [h.types]
  exact ⟨rfl, h.withTypes (h.fields_push rfl)⟩

theorem setFields (h : t.Alike R t') (type : TypeId) {fields : List EntryId}
    (hfields : ∀ id ∈ fields, id.Declared) :
    (t.setFields type fields).Alike R (t'.setFields type fields) := by
  unfold SymbolTable.setFields
  rw [h.types]
  refine h.withTypes fun type' id hid => ?_
  unfold Types.setFields at hid
  split at hid
  · exact h.fields type' id hid
  · rw [Types.fields, Types.descriptor?, Array.getElem?_modify] at hid
    have hold := h.fields type' id
    rw [Types.fields, Types.descriptor?] at hold
    split at hid
    · rcases hd : t.types.descriptors[type'.index]? with _ | d <;> rw [hd] at hid
      · exact absurd hid List.not_mem_nil
      · cases d with
        | object old => exact hfields id hid
        | _ => exact absurd hid List.not_mem_nil
    · exact hold hid

end Alike

end SymbolTable

end MicroJava
