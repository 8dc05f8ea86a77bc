import Mathlib.Logic.ExistsUnique
import MicroJava.Proofs.Table

/-!
# Sameness, assignability and comparability of types

The arenas that come about by adding arrays of types that exist, adding classes, and giving classes
their fields (`Types.Built`) have three things in common (`Types.Ordered`): an element is older than its
array, the type of what is missing has no descriptor but its own, and `null` is of a class. A type in
such an arena is a number of array layers over a base that is no array (`Types.Layered`), and it has
these in one way only. Sameness is having the same layers over the same base, which makes it an
equivalence; the two other relations are read off from it and from what is an array and what a class.
-/

namespace MicroJava

/-- An array has an element. -/
theorem Descriptor.isArray_iff {d : Descriptor} : d.isArray ↔ ∃ x, d = .array x := by
  cases d <;> simp [Descriptor.isArray]

namespace Types

/-- The arenas that come about from the first one by new arrays of types that it has, new classes, and
fields given to types. -/
inductive Built : Types → Prop
  | initial : Built initial
  | arrayOf {ts : Types} {element : TypeId} :
      Built ts → element.index < ts.descriptors.size → Built (ts.arrayOf element).2
  | newClass {ts : Types} : Built ts → Built ts.newClass.2
  | setFields {ts : Types} (t : TypeId) (fields : List EntryId) :
      Built ts → Built (ts.setFields t fields)

/-- A type of the arena. -/
def Has (ts : Types) (a : TypeId) : Prop := a.index < ts.descriptors.size

instance (ts : Types) (a : TypeId) : Decidable (ts.Has a) := inferInstanceAs (Decidable (_ < _))

/-- A type is a number of array layers over a base that is no array. -/
inductive Layered (ts : Types) (base : TypeId) : Nat → TypeId → Prop
  | base {d : Descriptor} :
      ts.descriptor? base = some d → d.isArray = false → Layered ts base 0 base
  | array {a x : TypeId} {n : Nat} :
      ts.descriptor? a = some (.array x) → Layered ts base n x → Layered ts base (n + 1) a

/-- The comparison of two types ends with a result: of two arrays the elements are compared, whichever
they are, and of any other two types the handles. -/
inductive Compares (ts : Types) : TypeId → TypeId → Bool → Prop
  | elements {a b x y : TypeId} {r : Bool} :
      ts.descriptor? a = some (.array x) → ts.descriptor? b = some (.array y) →
      Compares ts x y r → Compares ts a b r
  | handles {a b : TypeId} {d e : Descriptor} :
      ts.descriptor? a = some d → ts.descriptor? b = some e → ¬ (d.isArray ∧ e.isArray) →
      Compares ts a b (a = b)

/-- What all arenas have in common: elements are older than their arrays, and there are the types of
what is missing and of `null`. -/
structure Ordered (ts : Types) : Prop where
  older {a x : TypeId} : ts.descriptor? a = some (.array x) → x.index < a.index
  none : ts.descriptor? .none = some .none
  null : ts.descriptor? .null = some (.object [])

/-- The laws of the three relations between the types of an arena. -/
structure Relations (ts : Types) : Prop where
  /-- The comparison ends, with one result. -/
  compares (a b : TypeId) : ts.Has a → ts.Has b → ∀ r, ts.Compares a b r ↔ r = ts.same a b
  /-- A type has one number of layers over one base. -/
  layered (a : TypeId) : ts.Has a → ∃! l : Nat × TypeId, ts.Layered l.2 l.1 a
  same_iff (a b : TypeId) : ts.Has a → ts.Has b →
    (ts.same a b ↔ ∃ n base, ts.Layered base n a ∧ ts.Layered base n b)
  same : Equivalence fun a b : {a // ts.Has a} => ts.same a b = true
  assignable_refl (a : TypeId) : ts.Has a → ts.assignable a a
  assignable_trans (a b c : TypeId) : ts.Has a → ts.Has b → ts.Has c →
    ts.assignable a b → ts.assignable b c → ts.assignable a c
  assignable_antisymm (a b : TypeId) : ts.Has a → ts.Has b →
    ts.assignable a b → ts.assignable b a → ts.same a b
  comparable_refl (a : TypeId) : ts.Has a → ts.comparable a a
  comparable_symm (a b : TypeId) : ts.Has a → ts.Has b → ts.comparable a b → ts.comparable b a
  /-- What may be stored may be compared, but for an array that is stored as an array of no type. -/
  comparable_of_assignable (a b : TypeId) : ts.Has a → ts.Has b → ts.assignable a b →
    ts.comparable a b ∨ ts.descriptor? b = some (.array .none)

variable {ts : Types} {a b c base : TypeId}

theorem Has.exists_descriptor (h : ts.Has a) : ∃ d, ts.descriptor? a = some d :=
  ⟨_, Array.getElem?_eq_getElem h⟩

theorem has_of_descriptor? {d : Descriptor} (h : ts.descriptor? a = some d) : ts.Has a :=
  (Array.getElem?_eq_some_iff.1 h).1

theorem isReference_of_array {x : TypeId} (h : ts.descriptor? a = some (.array x)) :
    ts.isReference a := by
  rw [isReference, h]
  rfl

/-- The two rules by which a type may be stored as another one, besides being the same. -/
theorem assignable_iff : ts.assignable a b ↔
    ts.same a b ∨ (a = .null ∧ ts.isReference b) ∨
      (ts.isArray a ∧ ts.descriptor? b = some (.array .none)) := by
  have hnone : ts.isArray b ∧ ts.element b = .none ↔ ts.descriptor? b = some (.array .none) := by
    unfold isArray element
    rcases ts.descriptor? b with _ | (_ | _ | _ | x | fs) <;>
      simp [Descriptor.isArray, Descriptor.element]
  rw [← hnone]
  simp [assignable, or_assoc, and_assoc]

theorem comparable_iff : ts.comparable a b ↔
    ts.same a b ∨ (a = .null ∧ ts.isReference b) ∨ (b = .null ∧ ts.isReference a) := by
  simp [comparable, or_assoc]

/-! ### Every arena is ordered -/

namespace Ordered

theorem initial : initial.Ordered where
  older {a x} h := by
    obtain ⟨_ | _ | _ | _ | i⟩ := a <;> simp [Types.initial, descriptor?] at h
  none := rfl
  null := rfl

/-- A descriptor is added which is no array, or one whose element is there. -/
theorem push (h : ts.Ordered) {d : Descriptor} (hd : ∀ x, d = .array x → ts.Has x) :
    (⟨ts.descriptors.push d⟩ : Types).Ordered where
  older {a x} ha := by
    simp only [descriptor?, Array.getElem?_push] at ha
    split at ha
    · next heq =>
      rw [heq]
      exact hd x (Option.some.inj ha)
    · exact h.older ha
  none := descriptor?_push d _ _ h.none
  null := descriptor?_push d _ _ h.null

theorem setFields (h : ts.Ordered) (t : TypeId) (fs : List EntryId) : (ts.setFields t fs).Ordered where
  older {a x} ha := by
    rw [descriptor?_setFields] at ha
    split at ha
    · obtain ⟨d, hd, hx⟩ := Option.map_eq_some_iff.1 ha
      cases d <;> simp only [reduceCtorEq, Descriptor.array.injEq] at hx
      exact h.older (hx ▸ hd)
    · exact h.older ha
  none := by
    rw [descriptor?_setFields, h.none]
    split <;> rfl
  null := by
    rw [descriptor?_setFields, if_neg fun heq => heq.2 heq.1.symm, h.null]

end Ordered

theorem Built.ordered (h : ts.Built) : ts.Ordered := by
  induction h with
  | initial => exact .initial
  | arrayOf _ hlt ih =>
    refine ih.push fun x hx => ?_
    obtain rfl := Descriptor.array.inj hx
    exact hlt
  | newClass _ ih => exact ih.push (by simp)
  | setFields t fs _ ih => exact ih.setFields t fs

/-! ### Layers -/

/-- The layers of a type, and the base under them, are what they are. -/
theorem Layered.unique {base' : TypeId} {n m : Nat} (h : ts.Layered base n a)
    (h' : ts.Layered base' m a) : n = m ∧ base = base' := by
  induction h generalizing m with
  | base hd harray =>
    cases h' with
    | base => exact ⟨rfl, rfl⟩
    | array he =>
      rw [hd] at he
      obtain rfl := Option.some.inj he
      simp [Descriptor.isArray] at harray
  | array hd _ ih =>
    cases h' with
    | base he harray =>
      rw [hd] at he
      obtain rfl := Option.some.inj he
      simp [Descriptor.isArray] at harray
    | array he hx =>
      rw [hd] at he
      obtain rfl := Descriptor.array.inj (Option.some.inj he)
      obtain ⟨rfl, rfl⟩ := ih hx
      exact ⟨rfl, rfl⟩

theorem Layered.zero_iff : ts.Layered base 0 a ↔
    a = base ∧ ∃ d, ts.descriptor? a = some d ∧ d.isArray = false := by
  constructor
  · rintro ⟨hd, harray⟩
    exact ⟨rfl, _, hd, harray⟩
  · rintro ⟨rfl, d, hd, harray⟩
    exact .base hd harray

theorem layered_array_iff {x : TypeId} {n : Nat} (h : ts.descriptor? a = some (.array x)) :
    ts.Layered base n a ↔ ∃ m, n = m + 1 ∧ ts.Layered base m x := by
  constructor
  · rintro (⟨hd, harray⟩ | ⟨hd, hx⟩)
    · rw [h] at hd
      obtain rfl := Option.some.inj hd
      simp [Descriptor.isArray] at harray
    · rw [h] at hd
      obtain rfl := Descriptor.array.inj (Option.some.inj hd)
      exact ⟨_, rfl, hx⟩
  · rintro ⟨m, rfl, hx⟩
    exact .array h hx

theorem layered_plain_iff {d : Descriptor} {n : Nat} (h : ts.descriptor? a = some d)
    (hd : d.isArray = false) : ts.Layered base n a ↔ n = 0 ∧ a = base := by
  constructor
  · rintro (_ | ⟨hx, _⟩)
    · exact ⟨rfl, rfl⟩
    · rw [h] at hx
      obtain rfl := Option.some.inj hx
      simp [Descriptor.isArray] at hd
  · rintro ⟨rfl, rfl⟩
    exact .base h hd

namespace Ordered

variable (h : ts.Ordered)

include h

theorem has_element {x : TypeId} (ha : ts.descriptor? a = some (.array x)) : ts.Has x :=
  Nat.lt_trans (h.older ha) (has_of_descriptor? ha)

theorem exists_layered : ∀ {a : TypeId}, ts.Has a → ∃ n base, ts.Layered base n a := by
  intro ⟨i⟩
  induction i using Nat.strongRecOn with
  | ind i ih =>
    intro ha
    obtain ⟨d, hd⟩ := ha.exists_descriptor
    cases d with
    | array x =>
      obtain ⟨n, base, hx⟩ := ih x.index (h.older hd) (h.has_element hd)
      exact ⟨n + 1, base, .array hd hx⟩
    | _ => exact ⟨0, ⟨i⟩, .base hd rfl⟩

/-! ### Sameness -/

theorem same_arrays {x y : TypeId} (ha : ts.descriptor? a = some (.array x))
    (hb : ts.descriptor? b = some (.array y)) : ts.same a b = ts.same x y := by
  rw [Types.same, ha, hb]
  exact if_pos (h.older ha)

omit h in
theorem same_plain {d e : Descriptor} (ha : ts.descriptor? a = some d) (hb : ts.descriptor? b = some e)
    (hde : ¬ (d.isArray ∧ e.isArray)) : ts.same a b = decide (a = b) := by
  rw [Types.same, ha, hb]
  split
  · next x y hx hy =>
    obtain rfl := Option.some.inj hx
    obtain rfl := Option.some.inj hy
    exact absurd ⟨rfl, rfl⟩ hde
  · rfl

/-- The unguarded comparison comes to what sameness is defined as. -/
theorem compares_same (ha : ts.Has a) (hb : ts.Has b) : ts.Compares a b (ts.same a b) := by
  obtain ⟨n, base, hl⟩ := h.exists_layered ha
  -- the layers of one side bound how often elements are compared
  induction hl generalizing b with
  | @base d hd hplain =>
    obtain ⟨e, he⟩ := hb.exists_descriptor
    have hde : ¬ (d.isArray ∧ e.isArray) := by simp [hplain]
    rw [same_plain hd he hde]
    exact .handles hd he hde
  | array hd hx ih =>
    obtain ⟨e, he⟩ := hb.exists_descriptor
    cases e with
    | array y =>
      rw [h.same_arrays hd he]
      exact .elements hd he (ih (h.has_element hd) (h.has_element he))
    | _ =>
      rw [same_plain hd he (by simp [Descriptor.isArray])]
      exact .handles hd he (by simp [Descriptor.isArray])

theorem eq_same_of_compares {r : Bool} (hr : ts.Compares a b r) : r = ts.same a b := by
  induction hr with
  | elements ha hb _ ih => rw [ih, h.same_arrays ha hb]
  | handles ha hb hde => rw [same_plain ha hb hde]

theorem same_iff_layered (ha : ts.Has a) (hb : ts.Has b) :
    ts.same a b ↔ ∃ n base, ts.Layered base n a ∧ ts.Layered base n b := by
  have hcmp := h.compares_same ha hb
  -- along the comparison one layer is taken off both sides at a time
  generalize hr : ts.same a b = r at hcmp ⊢
  clear hr
  induction hcmp with
  | elements hda hdb _ ih =>
    refine (ih (h.has_element hda) (h.has_element hdb)).trans ?_
    constructor
    · rintro ⟨n, base, hx, hy⟩
      exact ⟨n + 1, base, .array hda hx, .array hdb hy⟩
    · rintro ⟨n, base, hla, hlb⟩
      obtain ⟨m, rfl, hx⟩ := (layered_array_iff hda).1 hla
      obtain ⟨m', heq, hy⟩ := (layered_array_iff hdb).1 hlb
      obtain rfl := Nat.succ.inj heq
      exact ⟨m, base, hx, hy⟩
  | @handles a b d e hda hdb hde =>
    rw [decide_eq_true_iff]
    constructor
    · rintro rfl
      obtain ⟨n, base, hl⟩ := h.exists_layered ha
      exact ⟨n, base, hl, hl⟩
    · rintro ⟨n, base, hx, hy⟩
      by_cases hd : d.isArray
      · have he : e.isArray = false := by simpa [hd] using hde
        obtain ⟨rfl, rfl⟩ := (layered_plain_iff hdb he).1 hy
        exact (Layered.zero_iff.1 hx).1
      · obtain ⟨rfl, rfl⟩ := (layered_plain_iff hda (by simpa using hd)).1 hx
        exact (Layered.zero_iff.1 hy).1.symm

theorem same_refl (ha : ts.Has a) : ts.same a a := by
  obtain ⟨n, base, hl⟩ := h.exists_layered ha
  exact (h.same_iff_layered ha ha).2 ⟨n, base, hl, hl⟩

theorem same_symm (ha : ts.Has a) (hb : ts.Has b) (hab : ts.same a b) : ts.same b a := by
  obtain ⟨n, base, hla, hlb⟩ := (h.same_iff_layered ha hb).1 hab
  exact (h.same_iff_layered hb ha).2 ⟨n, base, hlb, hla⟩

theorem same_trans (ha : ts.Has a) (hb : ts.Has b) (hc : ts.Has c) (hab : ts.same a b)
    (hbc : ts.same b c) : ts.same a c := by
  obtain ⟨n, base, hla, hlb⟩ := (h.same_iff_layered ha hb).1 hab
  obtain ⟨m, base', hlb', hlc⟩ := (h.same_iff_layered hb hc).1 hbc
  obtain ⟨rfl, rfl⟩ := hlb.unique hlb'
  exact (h.same_iff_layered ha hc).2 ⟨n, base, hla, hlc⟩

/-- Two types are the same if they are one type, or arrays of the same elements. -/
theorem same_cases (ha : ts.Has a) (hb : ts.Has b) (hab : ts.same a b) :
    a = b ∨ ∃ x y, ts.descriptor? a = some (.array x) ∧ ts.descriptor? b = some (.array y) ∧
      ts.same x y := by
  obtain ⟨d, hd⟩ := ha.exists_descriptor
  obtain ⟨e, he⟩ := hb.exists_descriptor
  by_cases hde : d.isArray ∧ e.isArray
  · obtain ⟨x, rfl⟩ := Descriptor.isArray_iff.1 hde.1
    obtain ⟨y, rfl⟩ := Descriptor.isArray_iff.1 hde.2
    exact .inr ⟨x, y, hd, he, h.same_arrays hd he ▸ hab⟩
  · rw [same_plain hd he hde] at hab
    exact .inl (of_decide_eq_true hab)

/-- Types that are the same are arrays both, or classes both. -/
theorem isReference_of_same (ha : ts.Has a) (hb : ts.Has b) (hab : ts.same a b)
    (href : ts.isReference a) : ts.isReference b := by
  rcases h.same_cases ha hb hab with rfl | ⟨x, y, -, hy, -⟩
  · exact href
  · rw [isReference, hy]
    rfl

theorem isArray_of_same (ha : ts.Has a) (hb : ts.Has b) (hab : ts.same a b)
    (harray : ts.isArray a) : ts.isArray b := by
  rcases h.same_cases ha hb hab with rfl | ⟨x, y, -, hy, -⟩
  · exact harray
  · rw [isArray, hy]
    rfl

/-- Nothing but `null` is of its type. -/
theorem eq_null_of_same (ha : ts.Has a) (hab : ts.same a .null) : a = .null := by
  rcases h.same_cases ha (has_of_descriptor? h.null) hab with heq | ⟨x, y, -, hy, -⟩
  · exact heq
  · rw [h.null] at hy
    simp at hy

/-- The arrays of no type are the same as these only. -/
theorem noneArray_of_same (ha : ts.Has a) (hb : ts.Has b) (hab : ts.same a b)
    (hnone : ts.descriptor? a = some (.array .none)) : ts.descriptor? b = some (.array .none) := by
  rcases h.same_cases ha hb hab with rfl | ⟨x, y, hx, hy, hxy⟩
  · exact hnone
  · rw [hnone] at hx
    obtain rfl := Descriptor.array.inj (Option.some.inj hx)
    rcases h.same_cases (h.has_element hnone) (h.has_element hy) hxy with rfl | ⟨_, _, hn, -, -⟩
    · exact hy
    · rw [h.none] at hn
      simp at hn

/-! ### Assignability and comparability -/

/-- Besides as the same type, `null` may be stored as any reference, and any array as an array of no
type. -/
theorem assignable_trans (ha : ts.Has a) (hb : ts.Has b) (hc : ts.Has c) (hab : ts.assignable a b)
    (hbc : ts.assignable b c) : ts.assignable a c := by
  rw [assignable_iff] at hab hbc ⊢
  obtain hab | ⟨rfl, href⟩ | ⟨harray, hnone⟩ := hab
  · obtain hbc | ⟨rfl, href⟩ | ⟨harray, hnone⟩ := hbc
    · exact .inl (h.same_trans ha hb hc hab hbc)
    · exact .inr (.inl ⟨h.eq_null_of_same ha hab, href⟩)
    · exact .inr (.inr ⟨h.isArray_of_same hb ha (h.same_symm ha hb hab) harray, hnone⟩)
  · refine .inr (.inl ⟨rfl, ?_⟩)
    obtain hbc | ⟨-, href'⟩ | ⟨-, hnone⟩ := hbc
    · exact h.isReference_of_same hb hc hbc href
    · exact href'
    · exact isReference_of_array hnone
  · refine .inr (.inr ⟨harray, ?_⟩)
    obtain hbc | ⟨rfl, -⟩ | ⟨-, hnone'⟩ := hbc
    · exact h.noneArray_of_same hb hc hbc hnone
    · rw [h.null] at hnone
      simp at hnone
    · exact hnone'

theorem assignable_antisymm (ha : ts.Has a) (hb : ts.Has b) (hab : ts.assignable a b)
    (hba : ts.assignable b a) : ts.same a b := by
  rw [assignable_iff] at hab hba
  obtain hab | ⟨rfl, -⟩ | ⟨harray, hnone⟩ := hab
  · exact hab
  · obtain hba | ⟨rfl, -⟩ | ⟨-, hnone⟩ := hba
    · exact h.same_symm hb ha hba
    · exact h.same_refl ha
    · rw [h.null] at hnone
      simp at hnone
  · obtain hba | ⟨rfl, -⟩ | ⟨-, hnone'⟩ := hba
    · exact h.same_symm hb ha hba
    · rw [h.null] at hnone
      simp at hnone
    · rw [h.same_arrays hnone' hnone]
      exact h.same_refl (h.has_element hnone)

theorem comparable_symm (ha : ts.Has a) (hb : ts.Has b) (hab : ts.comparable a b) :
    ts.comparable b a := by
  rw [comparable_iff] at hab ⊢
  obtain hab | hnull | hnull := hab
  · exact .inl (h.same_symm ha hb hab)
  · exact .inr (.inr hnull)
  · exact .inr (.inl hnull)

omit h in
theorem comparable_of_assignable (hab : ts.assignable a b) :
    ts.comparable a b ∨ ts.descriptor? b = some (.array .none) := by
  rw [assignable_iff] at hab
  rw [comparable_iff]
  obtain hab | hnull | ⟨-, hnone⟩ := hab
  · exact .inl (.inl hab)
  · exact .inl (.inr (.inl hnull))
  · exact .inr hnone

end Ordered

/-- In every arena that arrays, classes and fields are added to, sameness ends and is having the same
layers over the same base, and the relations obey their laws. -/
theorem relations_of_built (h : ts.Built) : ts.Relations where
  compares a b ha hb r := by
    constructor
    · exact h.ordered.eq_same_of_compares
    · rintro rfl
      exact h.ordered.compares_same ha hb
  layered a ha := by
    obtain ⟨n, base, hl⟩ := h.ordered.exists_layered ha
    refine ⟨(n, base), hl, fun ⟨m, base'⟩ hl' => ?_⟩
    obtain ⟨rfl, rfl⟩ := hl.unique hl'
    rfl
  same_iff _ _ := h.ordered.same_iff_layered
  same := by
    refine ⟨fun ⟨a, ha⟩ => h.ordered.same_refl ha, ?_, ?_⟩
    · rintro ⟨a, ha⟩ ⟨b, hb⟩ hab
      exact h.ordered.same_symm ha hb hab
    · rintro ⟨a, ha⟩ ⟨b, hb⟩ ⟨c, hc⟩ hab hbc
      exact h.ordered.same_trans ha hb hc hab hbc
  assignable_refl a ha := assignable_iff.2 (.inl (h.ordered.same_refl ha))
  assignable_trans _ _ _ := h.ordered.assignable_trans
  assignable_antisymm _ _ := h.ordered.assignable_antisymm
  comparable_refl a ha := comparable_iff.2 (.inl (h.ordered.same_refl ha))
  comparable_symm _ _ := h.ordered.comparable_symm
  comparable_of_assignable _ _ _ _ := Ordered.comparable_of_assignable

/-- Arrays of arrays of integers that are written twice, and a class. -/
theorem relations_of_built_arrays :
    let ts := ((((initial.arrayOf .int).2.arrayOf ⟨4⟩).2.newClass.2.arrayOf .int).2.arrayOf ⟨7⟩).2
    ts.Built ∧ ts.Relations ∧ (ts.Has ⟨5⟩ ∧ ts.Layered .int 2 ⟨5⟩) ∧
      (ts.Has ⟨8⟩ ∧ ts.Layered .int 2 ⟨8⟩) ∧ ts.same ⟨5⟩ ⟨8⟩ ∧ ts.assignable .null ⟨6⟩ := by
  intro ts
  have hbuilt : ts.Built :=
    .arrayOf (.arrayOf (.newClass (.arrayOf (.arrayOf .initial (by decide)) (by decide))) (by decide))
      (by decide)
  have h := relations_of_built hbuilt
  have ha : ts.Layered .int 2 ⟨5⟩ := .array (x := ⟨4⟩) rfl (.array rfl (.base rfl rfl))
  have hb : ts.Layered .int 2 ⟨8⟩ := .array (x := ⟨7⟩) rfl (.array rfl (.base rfl rfl))
  refine ⟨hbuilt, h, ⟨by decide, ha⟩, ⟨by decide, hb⟩, ?_, assignable_iff.2 (.inr (.inl (by decide)))⟩
  exact (h.same_iff _ _ (by decide) (by decide)).2 ⟨2, .int, ha, hb⟩

end Types

end MicroJava
