import Mathlib.Data.List.Basic
import MicroJava.Proofs.Declare

/-!
# Slots

The variables of a scope are numbered from zero on, in the order of their declaration, and so are the
fields of a class (`SymbolTable.Numbered`). The global variables are counted a second time, by the
assembler, and both counts agree (`Session.Numbered`). Declarations of any kind keep this, whatever is
declared twice or without a name (`Allots`).
-/

namespace MicroJava

/-- The slot and the level of a variable. -/
def Entry.slot? (e : Entry) : Option (Nat × Nat) :=
  match e.meaning with
  | .var slot level => some (slot, level)
  | _ => none

/-- An entry counts as a variable of its scope if it has a slot. -/
theorem Entry.isSome_slot? (e : Entry) :
    (match e.meaning with | .var .. => true | _ => false) = e.slot?.isSome := by
  obtain ⟨name, type, meaning⟩ := e
  cases meaning <;> rfl

/-- The address of a variable is its slot. -/
theorem Entry.address_of_slot? {e : Entry} {slot level : Nat} (h : e.slot? = some (slot, level)) :
    e.address = slot := by
  unfold Entry.slot? at h
  split at h
  · next hmeaning =>
    obtain ⟨rfl, -⟩ := Prod.mk.inj (Option.some.inj h)
    simp [Entry.address, hmeaning]
  · simp at h

/-- What is known of a method may change, without it becoming a variable. -/
theorem Entry.slot?_updateMethod (e : Entry) (f : Method → Method) :
    (e.updateMethod f).slot? = e.slot? := by
  obtain ⟨name, type, meaning⟩ := e
  cases meaning <;> rfl

namespace SymbolTable

variable {t t' t'' : SymbolTable}

/-- The slot and the level of the variable that a handle stands for. -/
def slotAt? (t : SymbolTable) (id : EntryId) : Option (Nat × Nat) :=
  (t.entryAt? id).bind Entry.slot?

theorem slotAt?_of_entryAt? {id : EntryId} {e : Entry} (he : t.entryAt? id = some e) :
    t.slotAt? id = e.slot? := by
  simp [slotAt?, he]

/-- A field that is found is one of its class. -/
theorem mem_of_findField {name : String} {ty : TypeId} {id : EntryId}
    (h : t.findField name ty = .ok id) : id ∈ t.types.fields ty := by
  unfold findField at h
  split at h
  · next hfind => exact Except.ok.inj h ▸ List.mem_of_find?_eq_some hfind
  · simp at h

theorem slotAt?_bind (e : Entry) (id : EntryId) :
    (t.bind e).2.slotAt? id = if id = ⟨t.entries.size⟩ then e.slot? else t.slotAt? id := by
  rw [slotAt?, entryAt?_bind]
  split
  · rfl
  · rfl

theorem slotAt?_update {i : EntryId} {f : Entry → Entry}
    (hf : i ≠ .none → ∀ e, t.entryAt? i = some e → (f e).slot? = e.slot?) (id : EntryId) :
    (t.update i f).slotAt? id = t.slotAt? id := by
  rw [slotAt?, entryAt?_update]
  split
  · next h =>
    rcases he : t.entryAt? id with _ | e
    · simp [slotAt?, he]
    · simpa [slotAt?, he] using hf h.2 e (h.1 ▸ he)
  · rfl

/-- The variables of the one table are those of the other, with the same slots. -/
structure Extends (t t' : SymbolTable) : Prop where
  size : t.entries.size ≤ t'.entries.size
  slotAt? : ∀ id : EntryId, id.index < t.entries.size → t'.slotAt? id = t.slotAt? id

theorem Extends.bind (t : SymbolTable) (e : Entry) : t.Extends (t.bind e).2 where
  size := by simp
  slotAt? := fun id hid => by
    rw [slotAt?_bind, if_neg]
    rintro rfl
    exact Nat.lt_irrefl _ hid

theorem Extends.trans (h : t.Extends t') (h' : t'.Extends t'') : t.Extends t'' where
  size := Nat.le_trans h.size h'.size
  slotAt? := fun id hid => by rw [h'.slotAt? id (Nat.lt_of_lt_of_le hid h.size), h.slotAt? id hid]

theorem Extends.of_entries (h : t'.entries = t.entries) : t.Extends t' where
  size := Nat.le_of_eq (congrArg Array.size h.symm)
  slotAt? := fun id _ => by rw [SymbolTable.slotAt?, SymbolTable.slotAt?, entryAt?, entryAt?, h]

theorem Extends.of_slotAt? (hsize : t'.entries.size = t.entries.size)
    (hslot : ∀ id, t'.slotAt? id = t.slotAt? id) : t.Extends t' :=
  ⟨Nat.le_of_eq hsize.symm, fun id _ => hslot id⟩

end SymbolTable

/-! ### Scopes -/

/-- The variables of a scope have the slots from zero on, in their order. Inside a class or a method,
only variables are declared. -/
structure Scope.Numbered (t : SymbolTable) (level : Nat) (s : Scope) : Prop where
  names : ∀ name id, s.find? name = some id → id ∈ s.locals
  known : ∀ id ∈ s.locals, id.index < t.entries.size
  slots : s.locals.toList.filterMap t.slotAt? = (List.range s.variableCount).map (·, level)
  dense : SymbolTable.programLevel < level → ∀ id ∈ s.locals, (t.slotAt? id).isSome

namespace Scope.Numbered

variable {t t' : SymbolTable} {level : Nat} {s : Scope}

theorem empty : Scope.empty.Numbered t level where
  names := by simp
  known := by simp [Scope.empty]
  slots := by simp [Scope.empty]
  dense := by simp [Scope.empty]

theorem mono (h : s.Numbered t level) (ht : t.Extends t') : s.Numbered t' level where
  names := h.names
  known := fun id hid => Nat.lt_of_lt_of_le (h.known id hid) ht.size
  slots := by
    rw [← h.slots]
    exact List.filterMap_congr fun id hid => ht.slotAt? id (h.known id (by simpa using hid))
  dense := fun hl id hid => by
    rw [ht.slotAt? id (h.known id hid)]
    exact h.dense hl id hid

theorem names_insert (h : s.Numbered t level) {name : String} {id : EntryId} {b : Bool} (name' : String)
    (id' : EntryId) (hfind : (s.insert name id b).find? name' = some id') :
    id' ∈ (s.insert name id b).locals := by
  rw [Scope.find?_insert] at hfind
  rw [Scope.locals_insert, Array.mem_push]
  split at hfind
  · exact .inr (Option.some.inj hfind).symm
  · exact .inl (h.names name' id' hfind)

theorem known_insert (h : s.Numbered t level) {name : String} {id : EntryId} {b : Bool}
    (hid : id.index < t.entries.size) (id' : EntryId) (hid' : id' ∈ (s.insert name id b).locals) :
    id'.index < t.entries.size := by
  rcases Array.mem_push.1 hid' with hid' | rfl
  · exact h.known id' hid'
  · exact hid

/-- One more variable gets the next slot. -/
theorem insert_variable (h : s.Numbered t level) {name : String} {id : EntryId}
    (hid : id.index < t.entries.size) (hslot : t.slotAt? id = some (s.variableCount, level)) :
    (s.insert name id true).Numbered t level where
  names := h.names_insert
  known := h.known_insert hid
  slots := by
    simp [Scope.insert, h.slots, hslot, List.range_succ]
  dense := fun hl id' hid' => by
    rcases Array.mem_push.1 hid' with hid' | rfl
    · exact h.dense hl id' hid'
    · simp [hslot]

/-- What is no variable gets no slot. -/
theorem insert_other (h : s.Numbered t level) {name : String} {id : EntryId}
    (hid : id.index < t.entries.size) (hslot : t.slotAt? id = none)
    (hl : level ≤ SymbolTable.programLevel) : (s.insert name id false).Numbered t level where
  names := h.names_insert
  known := h.known_insert hid
  slots := by
    simp [Scope.insert, h.slots, hslot]
  dense := fun hl' => absurd hl' (Nat.not_lt.2 hl)

theorem slot_lt (h : s.Numbered t level) {id : EntryId} (hid : id ∈ s.locals) {slot l : Nat}
    (hslot : t.slotAt? id = some (slot, l)) : l = level ∧ slot < s.variableCount := by
  have hmem : (slot, l) ∈ s.locals.toList.filterMap t.slotAt? :=
    List.mem_filterMap.2 ⟨id, by simpa using hid, hslot⟩
  rw [h.slots] at hmem
  obtain ⟨i, hi, heq⟩ := List.mem_map.1 hmem
  obtain ⟨rfl, rfl⟩ := Prod.mk.inj heq
  exact ⟨rfl, List.mem_range.1 hi⟩

/-- The scope has as many variables as it counts. -/
theorem countP_eq (h : s.Numbered t level) :
    s.locals.toList.countP (fun id => (t.slotAt? id).isSome) = s.variableCount := by
  have hlength := congrArg List.length h.slots
  rw [List.length_filterMap_eq_countP] at hlength
  simpa using hlength

/-- Where only variables are declared, the slot of each is its place among them. -/
theorem slotAt?_of_getElem? (h : s.Numbered t level) (hl : SymbolTable.programLevel < level) {i : Nat}
    {id : EntryId} (hid : s.locals.toList[i]? = some id) : t.slotAt? id = some (i, level) := by
  have hall : ∀ id ∈ s.locals.toList, t.slotAt? id = some ((t.slotAt? id).getD (0, 0)) := by
    intro id hid
    obtain ⟨x, hx⟩ := Option.isSome_iff_exists.1 (h.dense hl id (by simpa using hid))
    simp [hx]
  have hslots := h.slots
  rw [List.filterMap_eq_map_iff_forall_eq_some.2 hall] at hslots
  have hi := congrArg (·[i]?) hslots
  simp only [List.getElem?_map, hid, Option.map_some] at hi
  rw [hall id (List.mem_of_getElem? hid)]
  obtain ⟨j, hj, hslot⟩ := Option.map_eq_some_iff.1 hi.symm
  have hji : i = j := by
    obtain ⟨hlt, hij⟩ := List.getElem?_eq_some_iff.1 hj
    simpa using hij
  rw [← hslot, hji]

/-- A scope of variables declares as many names as it has slots. -/
theorem size_locals (h : s.Numbered t level) (hl : SymbolTable.programLevel < level) :
    s.locals.size = s.variableCount := by
  rw [← h.countP_eq, ← Array.length_toList]
  exact (List.countP_eq_length.2 fun id hid => h.dense hl id (by simpa using hid)).symm

end Scope.Numbered

/-! ### Tables -/

namespace SymbolTable

/-- The scopes from one outward are numbered. -/
def NumbersScopes (t : SymbolTable) : List Scope → Prop
  | [] => True
  | s :: outer => s.Numbered t (outer.length + 1) ∧ t.NumbersScopes outer

theorem NumbersScopes.mono {t t' : SymbolTable} (ht : t.Extends t') :
    ∀ {scopes : List Scope}, t.NumbersScopes scopes → t'.NumbersScopes scopes
  | [], _ => trivial
  | _ :: _, h => ⟨h.1.mono ht, NumbersScopes.mono ht h.2⟩

/-- All scopes and classes are numbered, and no predeclared name is a variable. -/
structure Numbered (t : SymbolTable) : Prop where
  nonempty : 0 < t.entries.size
  inner : t.NumbersScopes t.inner
  outermost : ∀ name id, t.outermost.find? name = some id →
    id.index < t.entries.size ∧ t.slotAt? id = none
  known : ∀ ty, ∀ id ∈ t.types.fields ty, id.index < t.entries.size
  fields : ∀ ty i id, (t.types.fields ty)[i]? = some id → ∃ level, t.slotAt? id = some (i, level)

namespace Numbered

variable {t : SymbolTable}

theorem current (h : t.Numbered) (hl : 0 < t.level) : t.current.Numbered t t.level := by
  rcases t with ⟨entries, types, _ | ⟨s, outer⟩, outermost⟩
  · exact absurd hl (Nat.lt_irrefl 0)
  · exact h.inner.1

/-- The variables that are there keep their slots while entries are added or changed. -/
theorem mono (h : t.Numbered) {t' : SymbolTable} (ht : t.Extends t')
    (hinner : t'.inner = t.inner) (houtermost : t'.outermost = t.outermost)
    (htypes : t'.types = t.types) : t'.Numbered where
  nonempty := Nat.lt_of_lt_of_le h.nonempty ht.size
  inner := hinner ▸ h.inner.mono ht
  outermost := fun name id hfind => by
    obtain ⟨hlt, hslot⟩ := h.outermost name id (houtermost ▸ hfind)
    exact ⟨Nat.lt_of_lt_of_le hlt ht.size, by rw [ht.slotAt? id hlt, hslot]⟩
  known := fun ty id hid => Nat.lt_of_lt_of_le (h.known ty id (htypes ▸ hid)) ht.size
  fields := fun ty i id hid => by
    rw [htypes] at hid
    rw [ht.slotAt? id (h.known ty id (List.mem_of_getElem? hid))]
    exact h.fields ty i id hid

theorem allocate (h : t.Numbered) (e : Entry) : (t.allocate e).2.Numbered :=
  h.mono ((Extends.bind t e).trans (.of_entries (by simp [SymbolTable.allocate]))) rfl rfl rfl

/-- A variable gets the next slot of the innermost scope, and anything else is declared in the scope
of the program or around it. -/
theorem bind (h : t.Numbered) {e : Entry}
    (he : e.slot? = none ∧ t.level ≤ programLevel ∨
      e.slot? = some (t.current.variableCount, t.level) ∧ 0 < t.level) :
    (t.bind e).2.Numbered := by
  have hext : t.Extends (t.bind e).2 := .bind t e
  have hnew : (t.bind e).2.slotAt? ⟨t.entries.size⟩ = e.slot? := by rw [slotAt?_bind, if_pos rfl]
  have hlt : t.entries.size < (t.bind e).2.entries.size := by simp
  have hallocate := h.allocate e
  rcases t with ⟨entries, types, _ | ⟨s, outer⟩, outermost⟩
  · obtain ⟨he, -⟩ : e.slot? = none ∧ _ := he.resolve_right fun h => absurd h.2 (Nat.lt_irrefl 0)
    refine ⟨hallocate.nonempty, trivial, fun name id hfind => ?_, hallocate.known, hallocate.fields⟩
    have hfind : (outermost.insert e.name ⟨entries.size⟩ _).find? name = some id := hfind
    rw [Scope.find?_insert] at hfind
    split at hfind
    · obtain rfl := Option.some.inj hfind
      exact ⟨hlt, hnew.trans he⟩
    · exact hallocate.outermost name id hfind
  · refine ⟨hallocate.nonempty, ⟨?_, NumbersScopes.mono hext h.inner.2⟩, hallocate.outermost,
      hallocate.known, hallocate.fields⟩
    have hs := h.inner.1.mono hext
    show (s.insert e.name ⟨entries.size⟩ (match e.meaning with | .var .. => true | _ => false)).Numbered
      _ _
    rw [e.isSome_slot?]
    rcases he with ⟨he, hl⟩ | ⟨he, -⟩
    · rw [he]
      exact hs.insert_other hlt (hnew.trans he) hl
    · rw [he]
      exact hs.insert_variable hlt (hnew.trans he)

theorem update (h : t.Numbered) {i : EntryId} {f : Entry → Entry}
    (hf : i ≠ .none → ∀ e, t.entryAt? i = some e → (f e).slot? = e.slot?) :
    (t.update i f).Numbered :=
  h.mono (.of_slotAt? (by simp) (slotAt?_update hf)) (by simp) (by simp) (by simp)

/-- Changed types, whose classes have numbered fields. -/
theorem withTypes (h : t.Numbered) {types : Types}
    (hknown : ∀ ty, ∀ id ∈ types.fields ty, id.index < t.entries.size)
    (hfields : ∀ ty i id, (types.fields ty)[i]? = some id →
      ∃ level, t.slotAt? id = some (i, level)) : ({ t with types } : SymbolTable).Numbered :=
  ⟨h.nonempty, h.inner.mono (by exact .of_entries rfl), h.outermost, hknown, hfields⟩

theorem pushType (h : t.Numbered) {d : Descriptor} (hd : d.fields = []) :
    ({ t with types := ⟨t.types.descriptors.push d⟩ } : SymbolTable).Numbered :=
  h.withTypes (fun ty id hid => h.known ty id (t.types.fields_push hd ty ▸ hid))
    fun ty i id hid => h.fields ty i id (t.types.fields_push hd ty ▸ hid)

theorem openScope (h : t.Numbered) : t.openScope.Numbered where
  nonempty := h.nonempty
  inner := ⟨.empty, h.inner.mono (by exact .of_entries rfl)⟩
  outermost := h.outermost
  known := h.known
  fields := h.fields

theorem closeScope (h : t.Numbered) : t.closeScope.2.Numbered := by
  rcases t with ⟨entries, types, _ | ⟨s, outer⟩, outermost⟩
  · exact h
  · exact ⟨h.nonempty, NumbersScopes.mono (by exact .of_entries rfl) h.inner.2, h.outermost,
      h.known, h.fields⟩

/-- A class gets the names of a scope of variables as its fields. -/
theorem setFields (h : t.Numbered) (ty : TypeId) {s : Scope} {level : Nat}
    (hs : s.Numbered t level) (hl : programLevel < level) :
    (t.setFields ty s.locals.toList).Numbered := by
  refine h.withTypes (fun ty' id hid => ?_) fun ty' i id hid => ?_
  · rcases Types.mem_fields_setFields hid with hid | hid
    · exact hs.known id (by simpa using hid)
    · exact h.known ty' id hid
  · rcases t.types.fields_setFields ty s.locals.toList ty' with heq | heq
    · exact h.fields ty' i id (heq ▸ hid)
    · exact ⟨level, hs.slotAt?_of_getElem? hl (heq ▸ hid)⟩

theorem arrayOf (h : t.Numbered) (element : TypeId) : (t.arrayOf element).2.Numbered :=
  h.pushType (d := .array element) rfl

theorem newClass (h : t.Numbered) : t.newClass.2.Numbered := h.pushType (d := .object []) rfl

/-- A name stands for a variable of an open scope, if it stands for a variable. -/
theorem lookup? (h : t.Numbered) {name : String} {id : EntryId} {slot level : Nat}
    (hid : t.lookup? name = some id) (hslot : t.slotAt? id = some (slot, level)) :
    ∃ pre s outer, t.inner = pre ++ s :: outer ∧ level = outer.length + 1 ∧
      slot < s.variableCount := by
  have hscopes : ∀ scopes : List Scope, t.NumbersScopes scopes →
      scopes.findSome? (·.find? name) = some id → ∃ pre s outer, scopes = pre ++ s :: outer ∧
        level = outer.length + 1 ∧ slot < s.variableCount := by
    intro scopes hscopes hfind
    induction scopes with
    | nil => simp at hfind
    | cons s outer ih =>
      rw [List.findSome?_cons] at hfind
      split at hfind
      · next hname =>
        obtain rfl := Option.some.inj hfind
        exact ⟨[], s, outer, rfl, hscopes.1.slot_lt (hscopes.1.names name _ hname) hslot⟩
      · obtain ⟨pre, s', outer', heq, hlevel, hlt⟩ := ih hscopes.2 hfind
        exact ⟨s :: pre, s', outer', by rw [heq, List.cons_append], hlevel, hlt⟩
  rcases Option.or_eq_some_iff.1 hid with hid | ⟨-, hid⟩
  · exact hscopes t.inner h.inner hid
  · rw [(h.outermost name id hid).2] at hslot
    simp at hslot

theorem bindBuiltin (h : t.Numbered) (hl : t.level = 0) (name : String) (type : TypeId)
    (parameter : String) (parameterType : TypeId) :
    (t.bindBuiltin name type parameter parameterType).Numbered :=
  (h.allocate ⟨parameter, parameterType, .var 0 t.level⟩).bind
    (.inl ⟨rfl, Nat.le_trans (Nat.le_of_eq hl) (Nat.zero_le _)⟩)

theorem initial : SymbolTable.initial.Numbered := by
  have hl : 0 ≤ programLevel := Nat.zero_le _
  refine .bindBuiltin (.bindBuiltin (.bindBuiltin (.bind (.bind (.bind ?_ ?_) ?_) ?_) rfl ..) rfl ..)
    rfl ..
  · have hfields : ∀ ty, (Types.initial.arrayOf .none).2.fields ty = [] :=
      Types.fields_arrayOf_initial .none
    constructor
    · simp
    · trivial
    · simp
    · simpa using fun ty id hid => absurd (hfields ty ▸ hid) (by simp)
    · simpa using fun ty i id hid => absurd (hfields ty ▸ hid) (by simp)
  · exact .inl ⟨rfl, hl⟩
  · exact .inl ⟨rfl, hl⟩
  · exact .inl ⟨rfl, hl⟩

end Numbered

/-! ### Counting the global variables -/

/-- How many variables the scope of the program has. -/
def globalCount (t : SymbolTable) : Nat := t.inner.getLast?.elim 0 Scope.variableCount

variable (t : SymbolTable)

theorem globalCount_bind (e : Entry) : (t.bind e).2.globalCount =
    t.globalCount + if t.level = programLevel ∧ e.slot?.isSome then 1 else 0 := by
  rcases t with ⟨entries, types, _ | ⟨s, _ | ⟨s', outer⟩⟩, outermost⟩
  · rfl
  · show (s.insert e.name ⟨entries.size⟩
      (match e.meaning with | .var .. => true | _ => false)).variableCount = _
    rw [e.isSome_slot?]
    cases e.slot?.isSome <;> simp [globalCount, Scope.insert, level, programLevel]
  · simp [globalCount, level, programLevel, bind, allocate, updateCurrent]

@[simp] theorem globalCount_update (id : EntryId) (f : Entry → Entry) :
    (t.update id f).globalCount = t.globalCount := by
  simp [globalCount]

@[simp] theorem globalCount_openScope : t.openScope.globalCount = t.globalCount := by
  rcases t with ⟨entries, types, _ | ⟨s, outer⟩, outermost⟩ <;> rfl

/-- The scope of a class or method declares no global variable. -/
theorem globalCount_closeScope (h : programLevel < t.level) :
    t.closeScope.2.globalCount = t.globalCount := by
  rcases t with ⟨entries, types, _ | ⟨s, _ | ⟨s', outer⟩⟩, outermost⟩
  · rfl
  · exact absurd h (by simp [level, programLevel])
  · rfl

end SymbolTable

end MicroJava
