import MicroJava.Symbol.Table

/-!
# What the symbol table keeps

What each operation of the table does to the entries, the scopes and the types, and what all of them
keep (`SymbolTable.Sound`): no name and no field stands for the entry of undeclared names, a type name
has a type, and a method has at least as many locals as parameters. The entries of the predeclared
names stay as they are (`SymbolTable.Predeclared`).
-/

namespace MicroJava

namespace SymbolTable

variable (t : SymbolTable)

/-! ### Entries -/

@[simp] theorem entries_updateCurrent (f : Scope → Scope) :
    (t.updateCurrent f).entries = t.entries := by
  rcases t with ⟨entries, types, _ | ⟨s, outer⟩, outermost⟩ <;> rfl

@[simp] theorem types_updateCurrent (f : Scope → Scope) :
    (t.updateCurrent f).types = t.types := by
  rcases t with ⟨entries, types, _ | ⟨s, outer⟩, outermost⟩ <;> rfl

@[simp] theorem current_updateCurrent (f : Scope → Scope) :
    (t.updateCurrent f).current = f t.current := by
  rcases t with ⟨entries, types, _ | ⟨s, outer⟩, outermost⟩ <;> rfl

@[simp] theorem level_updateCurrent (f : Scope → Scope) :
    (t.updateCurrent f).level = t.level := by
  rcases t with ⟨entries, types, _ | ⟨s, outer⟩, outermost⟩ <;> rfl

@[simp] theorem entries_bind (e : Entry) : (t.bind e).2.entries = t.entries.push e := by
  simp [bind, allocate]

@[simp] theorem types_bind (e : Entry) : (t.bind e).2.types = t.types := by
  simp [bind, allocate]

@[simp] theorem level_bind (e : Entry) : (t.bind e).2.level = t.level :=
  (t.allocate e).2.level_updateCurrent _

theorem id_bind (e : Entry) : (t.bind e).1 = ⟨t.entries.size⟩ := rfl

theorem entryAt?_push {entries : Array Entry} {e : Entry} {t' : SymbolTable}
    (h : t'.entries = entries.push e) (id : EntryId) :
    t'.entryAt? id = if id.index = entries.size then some e else entries[id.index]? := by
  rw [entryAt?, h, Array.getElem?_push]

theorem entryAt?_bind (e : Entry) (id : EntryId) :
    (t.bind e).2.entryAt? id = if id = ⟨t.entries.size⟩ then some e else t.entryAt? id := by
  rw [entryAt?_push (t.entries_bind e)]
  by_cases h : id.index = t.entries.size
  · rw [if_pos h, if_pos (by cases id; simp_all)]
  · rw [if_neg h, if_neg (by rintro rfl; exact h rfl), entryAt?]

theorem index_lt_of_entryAt? {id : EntryId} {e : Entry} (h : t.entryAt? id = some e) :
    id.index < t.entries.size :=
  (Array.getElem?_eq_some_iff.1 h).1

@[simp] theorem types_update (id : EntryId) (f : Entry → Entry) :
    (t.update id f).types = t.types := by
  unfold update
  split <;> rfl

@[simp] theorem inner_update (id : EntryId) (f : Entry → Entry) :
    (t.update id f).inner = t.inner := by
  unfold update
  split <;> rfl

@[simp] theorem outermost_update (id : EntryId) (f : Entry → Entry) :
    (t.update id f).outermost = t.outermost := by
  unfold update
  split <;> rfl

@[simp] theorem size_entries_update (id : EntryId) (f : Entry → Entry) :
    (t.update id f).entries.size = t.entries.size := by
  unfold update
  split <;> simp

theorem entryAt?_update (i : EntryId) (f : Entry → Entry) (id : EntryId) :
    (t.update i f).entryAt? id =
      if id = i ∧ i ≠ .none then (t.entryAt? id).map f else t.entryAt? id := by
  unfold update changeable
  by_cases hi : i = .none
  · simp [hi]
  by_cases hlt : i.index < t.entries.size
  · rw [if_pos (by simp [hi, hlt])]
    simp only [entryAt?, Array.getElem?_modify]
    by_cases hid : id = i
    · subst hid
      simp [hi]
    · have : i.index ≠ id.index := fun h => hid (by cases i; cases id; simp_all)
      simp [hid, this]
  · rw [if_neg (by simp [hlt])]
    split
    · next h => simp [entryAt?, h.1, hlt]
    · rfl

/-! ### Scopes -/

@[simp] theorem entries_closeScope : t.closeScope.2.entries = t.entries := by
  rcases t with ⟨entries, types, _ | ⟨s, outer⟩, outermost⟩ <;> rfl

@[simp] theorem types_closeScope : t.closeScope.2.types = t.types := by
  rcases t with ⟨entries, types, _ | ⟨s, outer⟩, outermost⟩ <;> rfl

theorem level_closeScope : t.closeScope.2.level = t.level - 1 := by
  rcases t with ⟨entries, types, _ | ⟨s, outer⟩, outermost⟩ <;> rfl

theorem closeScope_fst (h : 0 < t.inner.length) : t.closeScope.1 = t.current.locals.toList := by
  rcases t with ⟨entries, types, _ | ⟨s, outer⟩, outermost⟩
  · simp at h
  · rfl

end SymbolTable

namespace Types

variable (ts : Types)

theorem fields_push {d : Descriptor} (hd : d.fields = []) (ty : TypeId) :
    (⟨ts.descriptors.push d⟩ : Types).fields ty = ts.fields ty := by
  simp only [fields, descriptor?, Array.getElem?_push]
  split
  · next h => simp [hd, h]
  · rfl

/-- No class has fields at first. -/
theorem fields_arrayOf_initial (element ty : TypeId) :
    (Types.initial.arrayOf element).2.fields ty = [] := by
  obtain ⟨i⟩ := ty
  refine (Types.initial.fields_push (d := .array element) rfl ⟨i⟩).trans ?_
  rcases i with _ | _ | _ | _ | i <;>
    simp [Types.initial, Types.fields, Types.descriptor?, Descriptor.fields]

@[simp] theorem size_arrayOf (t : TypeId) :
    (ts.arrayOf t).2.descriptors.size = ts.descriptors.size + 1 := by
  simp [arrayOf]

@[simp] theorem size_newClass : ts.newClass.2.descriptors.size = ts.descriptors.size + 1 := by
  simp [newClass]

@[simp] theorem size_setFields (t : TypeId) (fs : List EntryId) :
    (ts.setFields t fs).descriptors.size = ts.descriptors.size := by
  unfold setFields
  split <;> simp

/-- Only the class that is given fields may get other ones. -/
theorem fields_setFields (t : TypeId) (fs : List EntryId) (ty : TypeId) :
    (ts.setFields t fs).fields ty = ts.fields ty ∨ (ts.setFields t fs).fields ty = fs := by
  unfold setFields
  split
  · exact .inl rfl
  · simp only [fields, descriptor?, Array.getElem?_modify]
    split
    · rcases hd : ts.descriptors[ty.index]? with _ | d
      · simp
      · rcases d with _ | _ | _ | e | gs <;> simp [Descriptor.fields]
    · exact .inl rfl

/-- A new descriptor leaves the others as they are. -/
theorem descriptor?_push {ts : Types} (d' : Descriptor) (t : TypeId) (d : Descriptor)
    (h : ts.descriptor? t = some d) : (⟨ts.descriptors.push d'⟩ : Types).descriptor? t = some d := by
  have hlt : t.index < ts.descriptors.size := (Array.getElem?_eq_some_iff.1 h).1
  simp only [descriptor?, Array.getElem?_push, if_neg (Nat.ne_of_lt hlt)]
  exact h

theorem descriptor?_setFields (t : TypeId) (fs : List EntryId) (ty : TypeId) :
    (ts.setFields t fs).descriptor? ty =
      if ty = t ∧ t ≠ .null then (ts.descriptor? ty).map fun
        | .object _ => .object fs
        | d => d
      else ts.descriptor? ty := by
  by_cases hnull : t = .null
  · simp [setFields, hnull]
  · rw [setFields, if_neg hnull]
    simp only [descriptor?, Array.getElem?_modify]
    rcases t with ⟨i⟩
    rcases ty with ⟨j⟩
    by_cases hij : i = j
    · subst hij
      exact (if_pos rfl).trans (if_pos ⟨rfl, hnull⟩).symm
    · simp [hij, Ne.symm hij]

/-- Arrays are not changed by giving a class its fields. -/
theorem array_setFields {ts : Types} (t : TypeId) (fs : List EntryId) (ty element : TypeId)
    (h : ts.descriptor? ty = some (.array element)) :
    (ts.setFields t fs).descriptor? ty = some (.array element) := by
  rw [descriptor?_setFields, h]
  split <;> rfl

theorem mem_fields_setFields {ts : Types} {t ty : TypeId} {fs : List EntryId} {id : EntryId}
    (h : id ∈ (ts.setFields t fs).fields ty) : id ∈ fs ∨ id ∈ ts.fields ty := by
  rcases ts.fields_setFields t fs ty with heq | heq
  · exact .inr (heq ▸ h)
  · exact .inl (heq ▸ h)

end Types

/-! ### Soundness -/

/-- No name of a scope stands for the entry of undeclared names. -/
structure Scope.Sound (s : Scope) : Prop where
  find {name : String} {id : EntryId} : s.find? name = some id → id ≠ .none
  locals : ∀ id ∈ s.locals, id ≠ .none
  count : s.variableCount ≤ s.locals.size

theorem Scope.Sound.empty : Scope.empty.Sound where
  find := by simp
  locals := by simp [Scope.empty]
  count := by simp [Scope.empty]

theorem Scope.Sound.insert {s : Scope} (h : s.Sound) {name : String} {id : EntryId} {b : Bool}
    (hid : id ≠ .none) : (s.insert name id b).Sound where
  find := by
    intro name' id' hfind
    rw [Scope.find?_insert] at hfind
    split at hfind
    · rwa [← Option.some.inj hfind]
    · exact h.find hfind
  locals := by
    intro id' hmem
    rcases Array.mem_push.1 hmem with hmem | rfl
    · exact h.locals id' hmem
    · exact hid
  count := by
    have := h.count
    simp only [Scope.insert, Array.size_push]
    split <;> omega

/-- A type name has a type, and a method has its parameters among its locals. -/
def Entry.Sound (e : Entry) : Prop :=
  match e.meaning with
  | .typeName => e.type ≠ .none
  | .method m => m.parameters ≤ m.locals.length
  | _ => True

/-- What every operation of the table keeps. -/
structure SymbolTable.Sound (t : SymbolTable) : Prop where
  nonempty : 0 < t.entries.size
  types : 0 < t.types.descriptors.size
  entries : ∀ e ∈ t.entries, e.Sound
  inner : ∀ s ∈ t.inner, s.Sound
  outermost : t.outermost.Sound
  fields : ∀ ty, ∀ id ∈ t.types.fields ty, id ≠ .none

namespace SymbolTable.Sound

variable {t : SymbolTable}

theorem entryAt? (h : t.Sound) {id : EntryId} {e : Entry} (he : t.entryAt? id = some e) :
    e.Sound :=
  h.entries e (Array.mem_of_getElem? he)

theorem current (h : t.Sound) : t.current.Sound := by
  rcases t with ⟨entries, types, _ | ⟨s, outer⟩, outermost⟩
  · exact h.outermost
  · exact h.inner s (by simp)

theorem lookup? (h : t.Sound) {name : String} {id : EntryId} (hl : t.lookup? name = some id) :
    id ≠ .none := by
  rcases Option.or_eq_some_iff.1 hl with hl | ⟨-, hl⟩
  · obtain ⟨s, hs, hl⟩ := List.exists_of_findSome?_eq_some hl
    exact (h.inner s hs).find hl
  · exact h.outermost.find hl

theorem updateCurrent (h : t.Sound) {f : Scope → Scope} (hf : (f t.current).Sound) :
    (t.updateCurrent f).Sound := by
  rcases t with ⟨entries, types, _ | ⟨s, outer⟩, outermost⟩
  · exact ⟨h.nonempty, h.types, h.entries, by simp [SymbolTable.updateCurrent], hf, h.fields⟩
  · refine ⟨h.nonempty, h.types, h.entries, ?_, h.outermost, h.fields⟩
    intro s' hs'
    rcases List.mem_cons.1 hs' with rfl | hs'
    · exact hf
    · exact h.inner s' (by simp [hs'])

theorem allocate (h : t.Sound) {e : Entry} (he : e.Sound) : (t.allocate e).2.Sound where
  nonempty := by simp [SymbolTable.allocate]
  types := h.types
  entries := by
    intro e' he'
    rcases Array.mem_push.1 he' with he' | rfl
    · exact h.entries e' he'
    · exact he
  inner := h.inner
  outermost := h.outermost
  fields := h.fields

/-- A new entry is not that of undeclared names. -/
theorem fresh (h : t.Sound) : (⟨t.entries.size⟩ : EntryId) ≠ .none := by
  have := h.nonempty
  simp only [EntryId.none, ne_eq, EntryId.mk.injEq]
  omega

theorem bind (h : t.Sound) {e : Entry} (he : e.Sound) : (t.bind e).2.Sound := by
  refine (h.allocate he).updateCurrent ?_
  exact h.current.insert h.fresh

theorem declare (h : t.Sound) (category : Category) (name : String) {type : TypeId}
    (htype : category = .typeName → type ≠ .none) : (t.declare category name type).2.Sound := by
  unfold SymbolTable.declare
  split
  · exact h
  · refine h.bind ?_
    cases category
    · trivial
    · trivial
    · exact htype rfl
    · exact Nat.zero_le _
    · trivial

theorem update (h : t.Sound) {id : EntryId} {f : Entry → Entry}
    (hf : id ≠ .none → ∀ e, t.entryAt? id = some e → e.Sound → (f e).Sound) :
    (t.update id f).Sound := by
  unfold SymbolTable.update
  split
  · next hchange =>
    have hne : id ≠ .none := by simpa using (Bool.and_eq_true_iff.1 hchange).1
    refine ⟨by simpa using h.nonempty, h.types, ?_, h.inner, h.outermost, h.fields⟩
    intro e he
    obtain ⟨i, hi⟩ := Array.mem_iff_getElem?.1 he
    rw [Array.getElem?_modify] at hi
    split at hi
    · next hid =>
      obtain ⟨e', he', rfl⟩ := Option.map_eq_some_iff.1 hi
      exact hf hne e' (by rw [SymbolTable.entryAt?, hid, he']) (h.entries e' (Array.mem_of_getElem? he'))
    · exact h.entries e (Array.mem_of_getElem? hi)
  · exact h

theorem openScope (h : t.Sound) : t.openScope.Sound where
  nonempty := h.nonempty
  types := h.types
  entries := h.entries
  inner := by
    intro s hs
    rcases List.mem_cons.1 hs with rfl | hs
    · exact .empty
    · exact h.inner s hs
  outermost := h.outermost
  fields := h.fields

theorem closeScope (h : t.Sound) : t.closeScope.2.Sound := by
  rcases t with ⟨entries, types, _ | ⟨s, outer⟩, outermost⟩
  · exact h
  · exact ⟨h.nonempty, h.types, h.entries, fun s hs => h.inner s (List.mem_cons_of_mem _ hs),
      h.outermost, h.fields⟩

theorem mem_closeScope (h : t.Sound) {id : EntryId} (hid : id ∈ t.closeScope.1) : id ≠ .none := by
  rcases t with ⟨entries, types, _ | ⟨s, outer⟩, outermost⟩
  · simp [SymbolTable.closeScope] at hid
  · exact (h.inner s (by simp)).locals id (by simpa [SymbolTable.closeScope] using hid)

/-- Changed types that have no other fields. -/
theorem withTypes (h : t.Sound) {types : Types} (hsize : 0 < types.descriptors.size)
    (hfields : ∀ ty, ∀ id ∈ types.fields ty, id ≠ .none) :
    ({ t with types } : SymbolTable).Sound :=
  ⟨h.nonempty, hsize, h.entries, h.inner, h.outermost, hfields⟩

theorem arrayOf (h : t.Sound) (element : TypeId) : (t.arrayOf element).2.Sound :=
  h.withTypes (by simp) fun ty id hid =>
    h.fields ty id (t.types.fields_push (d := .array element) rfl ty ▸ hid)

theorem newClass (h : t.Sound) : t.newClass.2.Sound :=
  h.withTypes (by simp) fun ty id hid =>
    h.fields ty id (t.types.fields_push (d := .object []) rfl ty ▸ hid)

theorem setFields (h : t.Sound) (type : TypeId) {fields : List EntryId}
    (hfields : ∀ id ∈ fields, id ≠ .none) : (t.setFields type fields).Sound :=
  h.withTypes (by rw [Types.size_setFields]; exact h.types) fun ty id hid => by
    rcases Types.mem_fields_setFields hid with hid | hid
    · exact hfields id hid
    · exact h.fields ty id hid

theorem bindBuiltin (h : t.Sound) (name : String) (type : TypeId) (parameter : String)
    (parameterType : TypeId) : (t.bindBuiltin name type parameter parameterType).Sound :=
  (h.allocate (e := ⟨parameter, parameterType, .var 0 t.level⟩) trivial).bind (Nat.le_refl 1)

theorem initial : SymbolTable.initial.Sound := by
  refine .bindBuiltin (.bindBuiltin (.bindBuiltin (.bind (.bind (.bind ?_ ?_) ?_) ?_) ..) ..) ..
  · constructor
    · simp
    · simp
    · simp [Entry.Sound]
    · simp
    · exact .empty
    · intro ty id hid
      have hid : id ∈ (Types.initial.arrayOf .none).2.fields ty := hid
      rw [Types.fields_arrayOf_initial] at hid
      simp at hid
  · simp [Entry.Sound, TypeId.int, TypeId.none]
  · simp [Entry.Sound, TypeId.char, TypeId.none]
  · trivial

end SymbolTable.Sound

/-! ### The predeclared names -/

/-- The entries of the predeclared names are as they were at first. -/
def SymbolTable.Predeclared (t : SymbolTable) : Prop :=
  ∀ id : EntryId, id.index < initial.entries.size → t.entryAt? id = initial.entryAt? id

/-- An entry that the program has declared, or the one of undeclared names. -/
def EntryId.IsOwn (id : EntryId) : Prop :=
  id = .none ∨ SymbolTable.initial.entries.size ≤ id.index

theorem Builtin.id_of_ofId? {id : EntryId} {b : Builtin} (h : ofId? id = some b) : b.id = id := by
  simpa using List.find?_some h

namespace SymbolTable.Predeclared

variable {t : SymbolTable}

theorem size_le (h : t.Predeclared) : initial.entries.size ≤ t.entries.size := by
  refine Nat.le_of_not_lt fun hlt => ?_
  have := h ⟨t.entries.size⟩ hlt
  simp [entryAt?, Array.getElem?_eq_getElem hlt] at this

theorem bind (h : t.Predeclared) (e : Entry) : (t.bind e).2.Predeclared := by
  intro id hid
  have := h.size_le
  rw [entryAt?_bind, if_neg (by rintro rfl; simp at hid; omega), h id hid]

theorem declare (h : t.Predeclared) (category : Category) (name : String) (type : TypeId) :
    (t.declare category name type).2.Predeclared := by
  unfold SymbolTable.declare
  split
  · exact h
  · exact h.bind _

theorem update (h : t.Predeclared) {i : EntryId} (hi : i.IsOwn) (f : Entry → Entry) :
    (t.update i f).Predeclared := by
  intro id hid
  rw [entryAt?_update, if_neg, h id hid]
  rintro ⟨rfl, hne⟩
  rcases hi with rfl | hi
  · exact hne rfl
  · omega

theorem method?_none (h : t.Predeclared) {e : Entry} (he : t.entryAt? .none = some e) :
    e.method? = none := by
  rw [h .none (by decide)] at he
  obtain rfl := Option.some.inj he
  rfl

/-- The predeclared methods give a value for one argument. -/
theorem builtin (h : t.Predeclared) (b : Builtin) :
    ∃ e m, t.entryAt? b.id = some e ∧ e.method? = some m ∧ e.type ≠ .none ∧ m.parameters = 1 ∧
      m.variadic = false := by
  have hlt : b.id.index < initial.entries.size := by cases b <;> decide
  rw [h b.id hlt]
  cases b
  · exact ⟨_, _, rfl, rfl, by decide, rfl, rfl⟩
  · exact ⟨_, _, rfl, rfl, by decide, rfl, rfl⟩
  · exact ⟨_, _, rfl, rfl, by decide, rfl, rfl⟩

end SymbolTable.Predeclared

end MicroJava
