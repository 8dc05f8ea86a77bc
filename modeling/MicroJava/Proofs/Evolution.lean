import Mathlib.Logic.Relation
import MicroJava.Operand
import MicroJava.Proofs.Closed

/-!
# How a symbol table evolves

A symbol table changes in steps: names are declared, entries of the program get more known of them,
types are added, classes get their fields, and scopes are opened and closed (`SymbolTable.Step`). Each
step is given handles of the table that it changes only. So in every table that comes about in such
steps from the first one (`SymbolTable.Evolves`), no handle is dangling and the predeclared entries are
as they were at first; and every lookup that follows handles inside the table finds what it looks for
(`SymbolTable.InBounds`), which `same?`, `fits?` and their like say: they look up every handle, and give
nothing where one is not of the table.
-/

namespace MicroJava

/-! ### Lookups that may fail -/

/-- Whether two types are the same, if every type that this depends on is one of the arena and older
than its arrays. -/
def Types.same? (ts : Types) (a b : TypeId) : Option Bool :=
  match ts.descriptor? a, ts.descriptor? b with
  | some (.array x), some (.array y) =>
    if x.index < a.index ∧ y.index < b.index then same? ts x y else none
  | some _, some _ => some (a = b)
  | _, _ => none
  termination_by a.index

/-- Whether two types may be compared, if all that this depends on is in the arena. -/
def Types.comparable? (ts : Types) (a b : TypeId) : Option Bool := do
  let same ← ts.same? a b
  let d ← ts.descriptor? a
  let e ← ts.descriptor? b
  return same || (a = .null && e.isReference) || (b = .null && d.isReference)

/-- Whether a type may be stored where another is wanted, if all that this depends on is in the
arena. -/
def Types.assignable? (ts : Types) (source target : TypeId) : Option Bool := do
  let same ← ts.same? source target
  let d ← ts.descriptor? source
  let e ← ts.descriptor? target
  return same || (source = .null && e.isReference) || (d.isArray && e.isArray && e.element = .none)

/-- Whether an operand may be stored where a type is wanted, if all that this depends on is in the
arena. -/
def Operand.fits? (x : Operand) (ts : Types) (target : TypeId) : Option Bool := do
  let assignable ← ts.assignable? x.type target
  return assignable ||
    match x.constant? with
    | none => false
    | some v =>
      (x.type = .int || x.type = .char) &&
        (target = .int || (target = .char && 0 ≤ v.toInt && v.toInt ≤ 0xFFFF))

/-- The first of some entries with a given name, if all that are looked at are in the arena. -/
def SymbolTable.firstNamed? (t : SymbolTable) (name : String) : List EntryId → Option (Option EntryId)
  | [] => some none
  | id :: ids => do
    let e ← t.entryAt? id
    if e.name == name then return some id else t.firstNamed? name ids

/-- The field of a class with a given name, if all that is looked at is in the arenas. -/
def SymbolTable.findField? (t : SymbolTable) (name : String) (type : TypeId) :
    Option (Except Problem EntryId) := do
  let d ← t.types.descriptor? type
  let id? ← t.firstNamed? name d.fields
  return id?.elim (.error .notAField) .ok

/-- Every lookup that starts with handles of the table stays in the table. -/
structure SymbolTable.InBounds (t : SymbolTable) : Prop where
  entry : ∀ id, id.IsKnown t → ∃ e, t.entryAt? id = some e ∧ e.Closed t
  descriptor : ∀ ty, ty.IsKnown t → ∃ d, t.types.descriptor? ty = some d ∧ d.element.IsKnown t ∧
    ∀ id ∈ d.fields, id.IsKnown t
  /-- An element type is older than its arrays. -/
  older : ∀ ty el, t.types.descriptor? ty = some (.array el) → el.index < ty.index
  lookup : ∀ name id, t.lookup? name = some id → id.IsKnown t
  comparable : ∀ a b, a.IsKnown t → b.IsKnown t →
    t.types.comparable? a b = some (t.types.comparable a b)
  fits : ∀ (x : Operand) (target : TypeId), x.type.IsKnown t → target.IsKnown t →
    x.fits? t.types target = some (x.fits t.types target)
  findField : ∀ name ty, ty.IsKnown t → t.findField? name ty = some (t.findField name ty)

theorem SymbolTable.known_of_descriptor? {t : SymbolTable} {ty : TypeId} {d : Descriptor}
    (h : t.types.descriptor? ty = some d) : ty.IsKnown t :=
  (Array.getElem?_eq_some_iff.1 h).1

namespace SymbolTable.Closed

variable {t : SymbolTable}

theorem same? (h : t.Closed) : ∀ {a b : TypeId}, a.IsKnown t → b.IsKnown t →
    t.types.same? a b = some (t.types.same a b) := by
  intro a b ha hb
  fun_induction t.types.same a b with
  | case1 a b x y hdb hda hlt ih =>
    -- both are arrays, and their elements are older
    rw [Types.same?, hda, hdb]
    simp only [hlt, h.element b y hdb, and_self, if_true]
    exact ih (h.known_element hda) (h.known_element hdb)
  | case2 a b x y _ hda hlt => exact absurd (h.element a x hda) hlt
  | case3 a b hne =>
    obtain ⟨d, hd⟩ := exists_descriptor ha
    obtain ⟨e, he⟩ := exists_descriptor hb
    rw [Types.same?, hd, he]
    split
    · next x y hx hy => exact absurd (hy ▸ he) (hne x y (hx ▸ hd))
    · rfl
    · next hnone => exact absurd rfl (hnone d e rfl)

theorem comparable? (h : t.Closed) {a b : TypeId} (ha : a.IsKnown t) (hb : b.IsKnown t) :
    t.types.comparable? a b = some (t.types.comparable a b) := by
  obtain ⟨d, hd⟩ := exists_descriptor ha
  obtain ⟨e, he⟩ := exists_descriptor hb
  simp [Types.comparable?, Types.comparable, Types.isReference, h.same? ha hb, hd, he]

theorem assignable? (h : t.Closed) {a b : TypeId} (ha : a.IsKnown t) (hb : b.IsKnown t) :
    t.types.assignable? a b = some (t.types.assignable a b) := by
  obtain ⟨d, hd⟩ := exists_descriptor ha
  obtain ⟨e, he⟩ := exists_descriptor hb
  simp [Types.assignable?, Types.assignable, Types.isReference, Types.isArray, Types.element,
    h.same? ha hb, hd, he]

theorem firstNamed? (name : String) : ∀ {ids : List EntryId}, (∀ id ∈ ids, id.IsKnown t) →
    t.firstNamed? name ids = some (ids.find? fun id => (t.entryAt? id).any (·.name == name))
  | [], _ => rfl
  | id :: ids, hids => by
    obtain ⟨e, he⟩ := exists_entry (hids id (by simp))
    have ih := firstNamed? name fun id' hid' => hids id' (List.mem_cons_of_mem _ hid')
    by_cases hname : e.name = name <;> simp [SymbolTable.firstNamed?, he, hname, ih]

theorem findField? (h : t.Closed) (name : String) {ty : TypeId} (hty : ty.IsKnown t) :
    t.findField? name ty = some (t.findField name ty) := by
  obtain ⟨d, hd⟩ := exists_descriptor hty
  have hfields : t.types.fields ty = d.fields := by simp [Types.fields, hd]
  have hnamed := firstNamed? name (hfields ▸ h.fields ty)
  simp only [SymbolTable.findField?, SymbolTable.findField, hd, hfields, hnamed,
    Option.bind_eq_bind, Option.bind_some]
  rcases d.fields.find? _ with _ | id <;> rfl

theorem inBounds (h : t.Closed) : t.InBounds where
  entry id hid := by
    obtain ⟨e, he⟩ := exists_entry hid
    exact ⟨e, he, h.entryAt? he⟩
  descriptor ty hty := by
    obtain ⟨d, hd⟩ := exists_descriptor hty
    have hfields : t.types.fields ty = d.fields := by simp [Types.fields, hd]
    exact ⟨d, hd, h.known_element hd, hfields ▸ h.fields ty⟩
  older := h.element
  lookup _ _ hl := h.lookup? hl
  comparable _ _ ha hb := h.comparable? ha hb
  fits x target hx htarget := by
    simp only [Operand.fits?, Operand.fits, h.assignable? hx htarget, Option.bind_eq_bind,
      Option.bind_some]
    rfl
  findField name _ hty := h.findField? name hty

end SymbolTable.Closed

/-! ### Steps -/

/-- One change of a table, with handles of the table. -/
inductive SymbolTable.Step : SymbolTable → SymbolTable → Prop
  | declare {t : SymbolTable} (category : Category) (name : String) {type : TypeId} :
    type.IsKnown t → Step t (t.declare category name type).2
  /-- An entry is changed that no predeclared name has. -/
  | update {t : SymbolTable} {id : EntryId} {f : Entry → Entry} : id.IsOwn → id.IsKnown t →
    (∀ e, e.Closed t → (f e).Closed t) → Step t (t.update id f)
  | arrayOf {t : SymbolTable} {element : TypeId} : element.IsKnown t →
    Step t (t.arrayOf element).2
  | newClass {t : SymbolTable} : Step t t.newClass.2
  | setFields {t : SymbolTable} {type : TypeId} {fields : List EntryId} : type.IsKnown t →
    (∀ id ∈ fields, id.IsKnown t) → Step t (t.setFields type fields)
  | openScope {t : SymbolTable} : Step t t.openScope
  | closeScope {t : SymbolTable} : Step t t.closeScope.2

/-- The table comes about from another in steps. -/
def SymbolTable.Evolves : SymbolTable → SymbolTable → Prop := Relation.ReflTransGen Step

namespace SymbolTable

variable {t t' t'' : SymbolTable}

theorem Step.grows (h : t.Step t') : t.Grows t' := by
  cases h with
  | declare category name _ => exact .declare category name _
  | update _ _ _ => exact .update _ _
  | arrayOf _ => exact .arrayOf _
  | newClass => exact .newClass
  | setFields _ _ => exact .setFields _ _
  | openScope => exact .openScope
  | closeScope => exact .closeScope

theorem Step.closed (h : t.Step t') (ht : t.Closed) : t'.Closed := by
  cases h with
  | declare category name htype => exact ht.declare category name htype
  | update _ _ hf => exact ht.update fun e _ he => hf e he
  | arrayOf hel => exact (ht.arrayOf hel).1
  | newClass => exact ht.newClass.1
  | setFields _ hfields => exact ht.setFields _ hfields
  | openScope => exact ht.openScope
  | closeScope => exact ht.closeScope.1

theorem Step.predeclared (h : t.Step t') (ht : t.Predeclared) : t'.Predeclared := by
  cases h with
  | declare category name _ => exact ht.declare category name _
  | update hown _ _ => exact ht.update hown _
  | arrayOf _ => exact ht
  | newClass => exact ht
  | setFields _ _ => exact ht
  | openScope => exact ht
  | closeScope => exact fun id hid => by rw [entryAt?, entries_closeScope]; exact ht id hid

namespace Evolves

theorem refl (t : SymbolTable) : t.Evolves t := Relation.ReflTransGen.refl

theorem trans (h : t.Evolves t') (h' : t'.Evolves t'') : t.Evolves t'' :=
  Relation.ReflTransGen.trans h h'

theorem step (h : t.Step t') : t.Evolves t' := Relation.ReflTransGen.single h

theorem grows (h : t.Evolves t') : t.Grows t' := by
  induction h with
  | refl => exact .refl t
  | tail _ hstep ih => exact ih.trans hstep.grows

theorem closed (h : t.Evolves t') (ht : t.Closed) : t'.Closed := by
  induction h with
  | refl => exact ht
  | tail _ hstep ih => exact hstep.closed ih

theorem predeclared (h : t.Evolves t') (ht : t.Predeclared) : t'.Predeclared := by
  induction h with
  | refl => exact ht
  | tail _ hstep ih => exact hstep.predeclared ih

end Evolves

end SymbolTable

end MicroJava
