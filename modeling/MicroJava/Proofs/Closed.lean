import MicroJava.Proofs.Table

/-!
# No handle of the table is dangling

Every handle that an entry, a scope or a type holds is that of an entry or a type of the same table
(`SymbolTable.Closed`), and an element type is older than its arrays. Every operation of the table
keeps this, as long as the handles that it is given are known.
-/

namespace MicroJava

/-- The type is one of the table. -/
def TypeId.IsKnown (ty : TypeId) (t : SymbolTable) : Prop := ty.index < t.types.descriptors.size

/-- The entry is one of the table. -/
def EntryId.IsKnown (id : EntryId) (t : SymbolTable) : Prop := id.index < t.entries.size

instance (ty : TypeId) (t : SymbolTable) : Decidable (ty.IsKnown t) :=
  inferInstanceAs (Decidable (_ < _))

instance (id : EntryId) (t : SymbolTable) : Decidable (id.IsKnown t) :=
  inferInstanceAs (Decidable (_ < _))

/-- Entries and types may be added to the table, and none are taken away. -/
structure SymbolTable.Grows (t t' : SymbolTable) : Prop where
  entries : t.entries.size ≤ t'.entries.size
  types : t.types.descriptors.size ≤ t'.types.descriptors.size

namespace SymbolTable.Grows

variable {t t' t'' : SymbolTable}

theorem refl (t : SymbolTable) : t.Grows t := ⟨Nat.le_refl _, Nat.le_refl _⟩

theorem trans (h : t.Grows t') (h' : t'.Grows t'') : t.Grows t'' :=
  ⟨Nat.le_trans h.entries h'.entries, Nat.le_trans h.types h'.types⟩

theorem type (h : t.Grows t') {ty : TypeId} (hty : ty.IsKnown t) : ty.IsKnown t' :=
  Nat.lt_of_lt_of_le hty h.types

theorem entry (h : t.Grows t') {id : EntryId} (hid : id.IsKnown t) : id.IsKnown t' :=
  Nat.lt_of_lt_of_le hid h.entries

theorem bind (e : Entry) : t.Grows (t.bind e).2 := ⟨by simp, by simp⟩

theorem declare (category : Category) (name : String) (type : TypeId) :
    t.Grows (t.declare category name type).2 := by
  unfold SymbolTable.declare
  split
  · exact .refl t
  · exact .bind _

theorem update (id : EntryId) (f : Entry → Entry) : t.Grows (t.update id f) := ⟨by simp, by simp⟩

theorem openScope : t.Grows t.openScope := ⟨Nat.le_refl _, Nat.le_refl _⟩

theorem closeScope : t.Grows t.closeScope.2 := ⟨by simp, by simp⟩

theorem arrayOf (element : TypeId) : t.Grows (t.arrayOf element).2 :=
  ⟨Nat.le_refl _, by simp [SymbolTable.arrayOf]⟩

theorem newClass : t.Grows t.newClass.2 := ⟨Nat.le_refl _, by simp [SymbolTable.newClass]⟩

theorem setFields (type : TypeId) (fields : List EntryId) : t.Grows (t.setFields type fields) :=
  ⟨Nat.le_refl _, by simp [SymbolTable.setFields]⟩

end SymbolTable.Grows

/-- What the scope binds and lists are entries of the table. -/
structure Scope.Closed (s : Scope) (t : SymbolTable) : Prop where
  find : ∀ name id, s.find? name = some id → id.IsKnown t
  locals : ∀ id ∈ s.locals, id.IsKnown t

/-- The type of the entry, and the locals of a method, are those of the table. -/
structure Entry.Closed (e : Entry) (t : SymbolTable) : Prop where
  type : e.type.IsKnown t
  locals : ∀ m, e.method? = some m → ∀ id ∈ m.locals, id.IsKnown t

/-- Every handle in the table is one of the table. -/
structure SymbolTable.Closed (t : SymbolTable) : Prop where
  nonempty : EntryId.none.IsKnown t
  types : TypeId.null.IsKnown t
  entries : ∀ e ∈ t.entries, e.Closed t
  inner : ∀ s ∈ t.inner, s.Closed t
  outermost : t.outermost.Closed t
  element : ∀ (ty el : TypeId), t.types.descriptor? ty = some (.array el) → el.index < ty.index
  fields : ∀ ty, ∀ id ∈ t.types.fields ty, id.IsKnown t

theorem Scope.Closed.grows {s : Scope} {t t' : SymbolTable} (h : s.Closed t) (hg : t.Grows t') :
    s.Closed t' :=
  ⟨fun name id hid => hg.entry (h.find name id hid), fun id hid => hg.entry (h.locals id hid)⟩

theorem Scope.Closed.empty (t : SymbolTable) : Scope.empty.Closed t where
  find := by simp
  locals := by simp [Scope.empty]

theorem Scope.Closed.insert {s : Scope} {t : SymbolTable} (h : s.Closed t) {name : String}
    {id : EntryId} {b : Bool} (hid : id.IsKnown t) : (s.insert name id b).Closed t where
  find := by
    intro name' id' hfind
    rw [Scope.find?_insert] at hfind
    split at hfind
    · rwa [← Option.some.inj hfind]
    · exact h.find name' id' hfind
  locals := by
    intro id' hmem
    rcases Array.mem_push.1 hmem with hmem | rfl
    · exact h.locals id' hmem
    · exact hid

theorem Entry.Closed.grows {e : Entry} {t t' : SymbolTable} (h : e.Closed t) (hg : t.Grows t') :
    e.Closed t' :=
  ⟨hg.type h.type, fun m hm id hid => hg.entry (h.locals m hm id hid)⟩

/-- An entry that is not a method has no locals. -/
theorem Entry.Closed.of_method? {e : Entry} {t : SymbolTable} (ht : e.type.IsKnown t)
    (hm : e.method? = none) : e.Closed t :=
  ⟨ht, fun m h => by simp [hm] at h⟩

namespace SymbolTable.Closed

variable {t : SymbolTable}

theorem known_none (h : t.Closed) : TypeId.none.IsKnown t := Nat.lt_of_le_of_lt (by decide) h.types

theorem known_int (h : t.Closed) : TypeId.int.IsKnown t := Nat.lt_of_le_of_lt (by decide) h.types

theorem known_char (h : t.Closed) : TypeId.char.IsKnown t := Nat.lt_of_le_of_lt (by decide) h.types

theorem entryAt? (h : t.Closed) {id : EntryId} {e : Entry} (he : t.entryAt? id = some e) :
    e.Closed t :=
  h.entries e (Array.mem_of_getElem? he)

theorem exists_entry {id : EntryId} (hid : id.IsKnown t) : ∃ e, t.entryAt? id = some e :=
  ⟨_, Array.getElem?_eq_getElem hid⟩

theorem exists_descriptor {ty : TypeId} (hty : ty.IsKnown t) :
    ∃ d, t.types.descriptor? ty = some d :=
  ⟨_, Array.getElem?_eq_getElem hty⟩

theorem current (h : t.Closed) : t.current.Closed t := by
  rcases t with ⟨entries, types, _ | ⟨s, outer⟩, outermost⟩
  · exact h.outermost
  · exact h.inner s (by simp)

theorem lookup? (h : t.Closed) {name : String} {id : EntryId} (hl : t.lookup? name = some id) :
    id.IsKnown t := by
  rcases Option.or_eq_some_iff.1 hl with hl | ⟨-, hl⟩
  · obtain ⟨s, hs, hl⟩ := List.exists_of_findSome?_eq_some hl
    exact (h.inner s hs).find name id hl
  · exact h.outermost.find name id hl

/-- The element of a known array is known. -/
theorem known_element (h : t.Closed) {ty : TypeId} {d : Descriptor}
    (hd : t.types.descriptor? ty = some d) : d.element.IsKnown t := by
  cases d with
  | array el =>
    have hlt : ty.IsKnown t := (Array.getElem?_eq_some_iff.1 hd).1
    exact Nat.lt_trans (h.element ty el hd) hlt
  | _ => exact h.known_none

/-! ### Operations -/

theorem withCurrent (h : t.Closed) {f : Scope → Scope} (hf : (f t.current).Closed t) :
    (t.updateCurrent f).Closed := by
  have hg : t.Grows (t.updateCurrent f) := ⟨by simp, by simp⟩
  rcases t with ⟨entries, types, _ | ⟨s, outer⟩, outermost⟩
  · exact ⟨h.nonempty, h.types, fun e he => (h.entries e he).grows hg,
      by simp [SymbolTable.updateCurrent], hf.grows hg, h.element, h.fields⟩
  · refine ⟨h.nonempty, h.types, fun e he => (h.entries e he).grows hg, ?_, h.outermost.grows hg,
      h.element, h.fields⟩
    intro s' hs'
    rcases List.mem_cons.1 hs' with rfl | hs'
    · exact hf.grows hg
    · exact (h.inner s' (by simp [hs'])).grows hg

theorem allocate (h : t.Closed) {e : Entry} (he : e.Closed t) : (t.allocate e).2.Closed := by
  have hg : t.Grows (t.allocate e).2 := ⟨by simp [SymbolTable.allocate], Nat.le_refl _⟩
  refine ⟨hg.entry h.nonempty, hg.type h.types, ?_, fun s hs => (h.inner s hs).grows hg,
    h.outermost.grows hg, h.element, fun ty id hid => hg.entry (h.fields ty id hid)⟩
  intro e' he'
  rcases Array.mem_push.1 he' with he' | rfl
  · exact (h.entries e' he').grows hg
  · exact he.grows hg

theorem bind (h : t.Closed) {e : Entry} (he : e.Closed t) : (t.bind e).2.Closed := by
  refine (h.allocate he).withCurrent ?_
  have hg : t.Grows (t.allocate e).2 := ⟨by simp [SymbolTable.allocate], Nat.le_refl _⟩
  refine .insert (h.current.grows hg) ?_
  simp [EntryId.IsKnown, SymbolTable.allocate]

theorem declare (h : t.Closed) (category : Category) (name : String) {type : TypeId}
    (htype : type.IsKnown t) : (t.declare category name type).2.Closed := by
  unfold SymbolTable.declare
  split
  · exact h
  · refine h.bind ⟨htype, fun m hm => ?_⟩
    cases category
    case method =>
      obtain rfl : ({} : Method) = m := Option.some.inj hm
      simp
    all_goals exact absurd hm (by simp [Entry.method?, meaningOf])

theorem update (h : t.Closed) {id : EntryId} {f : Entry → Entry}
    (hf : ∀ e, t.entryAt? id = some e → e.Closed t → (f e).Closed t) : (t.update id f).Closed := by
  unfold SymbolTable.update
  split
  · have hg : t.Grows { t with entries := t.entries.modify id.index f } :=
      ⟨by simp, Nat.le_refl _⟩
    refine ⟨hg.entry h.nonempty, h.types, ?_, fun s hs => (h.inner s hs).grows hg,
      h.outermost.grows hg, h.element, fun ty id hid => hg.entry (h.fields ty id hid)⟩
    intro e he
    obtain ⟨i, hi⟩ := Array.mem_iff_getElem?.1 he
    rw [Array.getElem?_modify] at hi
    split at hi
    · next hid =>
      obtain ⟨e', he', rfl⟩ := Option.map_eq_some_iff.1 hi
      exact (hf e' (by rw [SymbolTable.entryAt?, hid, he'])
        (h.entries e' (Array.mem_of_getElem? he'))).grows hg
    · exact (h.entries e (Array.mem_of_getElem? hi)).grows hg
  · exact h

theorem openScope (h : t.Closed) : t.openScope.Closed := by
  have hg : t.Grows t.openScope := .openScope
  refine ⟨h.nonempty, h.types, fun e he => (h.entries e he).grows hg, ?_, h.outermost.grows hg,
    h.element, h.fields⟩
  intro s hs
  rcases List.mem_cons.1 hs with rfl | hs
  · exact .empty _
  · exact (h.inner s hs).grows hg

theorem closeScope (h : t.Closed) :
    t.closeScope.2.Closed ∧ ∀ id ∈ t.closeScope.1, id.IsKnown t.closeScope.2 := by
  rcases t with ⟨entries, types, _ | ⟨s, outer⟩, outermost⟩
  · exact ⟨h, by simp [SymbolTable.closeScope]⟩
  · have hg : SymbolTable.Grows ⟨entries, types, s :: outer, outermost⟩
        ⟨entries, types, outer, outermost⟩ := ⟨Nat.le_refl _, Nat.le_refl _⟩
    refine ⟨⟨h.nonempty, h.types, fun e he => (h.entries e he).grows hg,
      fun s' hs' => (h.inner s' (List.mem_cons_of_mem _ hs')).grows hg, h.outermost.grows hg,
      h.element, h.fields⟩, fun id hid => ?_⟩
    exact (h.inner s (by simp)).locals id (by simpa [SymbolTable.closeScope] using hid)

/-- One more type. -/
theorem pushType (h : t.Closed) {d : Descriptor} (hd : d.element.IsKnown t)
    (hfields : d.fields = []) :
    ({ t with types := ⟨t.types.descriptors.push d⟩ } : SymbolTable).Closed := by
  have hg : t.Grows { t with types := ⟨t.types.descriptors.push d⟩ } := ⟨Nat.le_refl _, by simp⟩
  refine ⟨h.nonempty, hg.type h.types, fun e he => (h.entries e he).grows hg,
    fun s hs => (h.inner s hs).grows hg, h.outermost.grows hg, fun ty el hel => ?_,
    fun ty id hid => h.fields ty id (t.types.fields_push hfields ty ▸ hid)⟩
  simp only [Types.descriptor?, Array.getElem?_push] at hel
  split at hel
  · next hty =>
    obtain rfl := Option.some.inj hel
    rw [hty]
    exact hd
  · exact h.element ty el hel

theorem arrayOf (h : t.Closed) {element : TypeId} (hel : element.IsKnown t) :
    (t.arrayOf element).2.Closed ∧ (t.arrayOf element).1.IsKnown (t.arrayOf element).2 :=
  ⟨h.pushType (d := .array element) hel rfl, by
    simp [TypeId.IsKnown, SymbolTable.arrayOf, Types.arrayOf, Types.fresh]⟩

theorem newClass (h : t.Closed) : t.newClass.2.Closed ∧ t.newClass.1.IsKnown t.newClass.2 :=
  ⟨h.pushType (d := .object []) h.known_none rfl, by
    simp [TypeId.IsKnown, SymbolTable.newClass, Types.newClass, Types.fresh]⟩

theorem setFields (h : t.Closed) (type : TypeId) {fields : List EntryId}
    (hfields : ∀ id ∈ fields, id.IsKnown t) : (t.setFields type fields).Closed := by
  have hg : t.Grows (t.setFields type fields) := .setFields type fields
  refine ⟨h.nonempty, hg.type h.types, fun e he => (h.entries e he).grows hg,
    fun s hs => (h.inner s hs).grows hg, h.outermost.grows hg, fun ty el hel => ?_, ?_⟩
  · refine h.element ty el ?_
    simp only [SymbolTable.setFields, Types.setFields] at hel
    split at hel
    · exact hel
    · simp only [Types.descriptor?, Array.getElem?_modify] at hel ⊢
      split at hel
      · rcases hd : t.types.descriptors[ty.index]? with _ | d
        · simp [hd] at hel
        · cases d <;> simp_all
      · exact hel
  · intro ty id hid
    rcases Types.mem_fields_setFields hid with hid | hid
    · exact hfields id hid
    · exact h.fields ty id hid

theorem bindBuiltin (h : t.Closed) (name : String) {type : TypeId} (parameter : String)
    {parameterType : TypeId} (htype : type.IsKnown t) (hp : parameterType.IsKnown t) :
    (t.bindBuiltin name type parameter parameterType).Closed := by
  have hparameter : Entry.Closed ⟨parameter, parameterType, .var 0 t.level⟩ t :=
    .of_method? hp rfl
  have hg : t.Grows (t.allocate ⟨parameter, parameterType, .var 0 t.level⟩).2 :=
    ⟨by simp [SymbolTable.allocate], Nat.le_refl _⟩
  refine (h.allocate hparameter).bind ⟨hg.type htype, fun m hm id hid => ?_⟩
  obtain rfl := Option.some.inj hm
  rw [List.mem_singleton.1 hid]
  simp [EntryId.IsKnown, SymbolTable.allocate]

theorem initial : SymbolTable.initial.Closed := by
  have hempty : SymbolTable.Closed
      { entries := #[⟨"$none", .none, .var 0 0⟩], types := (Types.initial.arrayOf .none).2 } := by
    refine ⟨by decide, by decide, ?_, by simp, .empty _, fun ty el hel => ?_, fun ty id hid => ?_⟩
    · intro e he
      obtain rfl : e = ⟨"$none", .none, .var 0 0⟩ := by simpa using he
      exact .of_method? (by decide) rfl
    · obtain ⟨i⟩ := ty
      rcases i with _ | _ | _ | _ | _ | i <;>
        simp [Types.initial, Types.arrayOf, Types.descriptor?] at hel
      subst hel
      decide
    · have hty : id ∈ Types.initial.fields ty :=
        Types.initial.fields_push (d := .array .none) rfl ty ▸ hid
      obtain ⟨i⟩ := ty
      rcases i with _ | _ | _ | _ | i <;>
        simp [Types.initial, Types.fields, Types.descriptor?, Descriptor.fields] at hty
  have h₁ := hempty.bind (e := ⟨"int", .int, .typeName⟩) (.of_method? hempty.known_int rfl)
  have h₂ := h₁.bind (e := ⟨"char", .char, .typeName⟩) (.of_method? h₁.known_char rfl)
  have h₃ := h₂.bind (e := ⟨"null", .null, .constant 0⟩) (.of_method? h₂.types rfl)
  have h₄ := h₃.bindBuiltin "chr" "i" h₃.known_char h₃.known_int
  have h₅ := h₄.bindBuiltin "ord" "ch" h₄.known_int h₄.known_char
  exact h₅.bindBuiltin "len" "arr" h₅.known_int (by decide)

end SymbolTable.Closed

end MicroJava
