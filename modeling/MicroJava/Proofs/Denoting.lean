import Mathlib.Data.List.Forall2
import MicroJava.Operand
import MicroJava.Proofs.Acting
import MicroJava.Proofs.Statics
import MicroJava.Proofs.Table

/-!
# What handles stand for

The handles of a symbol table stand for types, names and operands of the static rules: a handle has a
type (`Types.HasType`), an entry is what its name is declared as (`SymbolTable.Binds`), and an operand
is the value of an expression (`SymbolTable.Denotes`). The comparisons of the table decide those of the
rules (`HasType.same_iff`, `HasType.assignable_iff`, `HasType.comparable_iff`, `Denotes.fits_iff`). A
session agrees with a context if its open scopes declare the same names (`Session.Agrees`).
-/

namespace MicroJava

open Static

/-- The handles of the declared classes. -/
abbrev Classes := String → Option TypeId

/-! ### Types -/

namespace Types

/-- The handle has the type. Classes are those that `ρ` knows. -/
def HasType (ρ : Classes) (ts : Types) : Ty → TypeId → Prop
  | .void, t => t = .none
  | .int, t => t = .int
  | .char, t => t = .char
  | .null, t => t = .null
  | .array τ, t => ∃ e, ts.descriptor? t = some (.array e) ∧ e.index < t.index ∧ HasType ρ ts τ e
  | .object k, t => ρ k = some t

/-- The types that need no declaration are there, and each class has a handle of its own. -/
structure Models (ρ : Classes) (ts : Types) : Prop where
  none : ts.descriptor? .none = some .none
  int : ts.descriptor? .int = some .int
  char : ts.descriptor? .char = some .char
  null : ts.descriptor? .null = some (.object [])
  object : ∀ {k t}, ρ k = some t → t ≠ .null ∧ ∃ ids, ts.descriptor? t = some (.object ids)
  injective : ∀ {k k' t}, ρ k = some t → ρ k' = some t → k = k'

/-- The descriptors of `ts` are those of `ts'`, which may have more. -/
def Sub (ts ts' : Types) : Prop := ∀ t d, ts.descriptor? t = some d → ts'.descriptor? t = some d

variable {ρ ρ' : Classes} {ts ts' : Types} {σ τ : Ty} {a b t : TypeId}

theorem HasType.mono (hρ : ∀ k i, ρ k = some i → ρ' k = some i)
    (hts : ∀ i e, ts.descriptor? i = some (.array e) → ts'.descriptor? i = some (.array e))
    (h : ts.HasType ρ τ t) : ts'.HasType ρ' τ t := by
  induction τ generalizing t with
  | array τ ih =>
    obtain ⟨e, he, hlt, h⟩ := h
    exact ⟨e, hts _ _ he, hlt, ih h⟩
  | object k => exact hρ k t h
  | _ => exact h

theorem Models.mono (hsub : ts.Sub ts') (h : ts.Models ρ) : ts'.Models ρ where
  none := hsub _ _ h.none
  int := hsub _ _ h.int
  char := hsub _ _ h.char
  null := hsub _ _ h.null
  object := fun hk => by
    obtain ⟨hne, ids, hids⟩ := h.object hk
    exact ⟨hne, ids, hsub _ _ hids⟩
  injective := h.injective

/-- Where a handle is known before more descriptors come, it has its type there. -/
theorem HasType.narrow (hsub : ts.Sub ts') (h : ts'.HasType ρ τ t)
    (ht : t.index < ts.descriptors.size) : ts.HasType ρ τ t := by
  induction τ generalizing t with
  | array τ ih =>
    obtain ⟨e, he, hlt, h⟩ := h
    obtain ⟨d, hd⟩ : ∃ d, ts.descriptor? t = some d := ⟨_, Array.getElem?_eq_getElem ht⟩
    have hd' := hsub _ _ hd
    rw [he] at hd'
    obtain rfl := Option.some.inj hd'
    exact ⟨e, hd, hlt, ih h (Nat.lt_trans hlt ht)⟩
  | _ => exact h

theorem index_lt_of_descriptor? {d : Descriptor} (h : ts.descriptor? t = some d) :
    t.index < ts.descriptors.size :=
  (Array.getElem?_eq_some_iff.1 h).1

/-- What is described, for each form of type. -/
def Describes (d : Descriptor) : Ty → Prop
  | .void => d = .none
  | .int => d = .int
  | .char => d = .char
  | .null => d = .object []
  | .array _ => ∃ e, d = .array e
  | .object _ => ∃ ids, d = .object ids

theorem HasType.describes (hm : ts.Models ρ) (h : ts.HasType ρ τ t) :
    ∃ d, ts.descriptor? t = some d ∧ Describes d τ := by
  cases τ with
  | void => exact ⟨_, h ▸ hm.none, rfl⟩
  | int => exact ⟨_, h ▸ hm.int, rfl⟩
  | char => exact ⟨_, h ▸ hm.char, rfl⟩
  | null => exact ⟨_, h ▸ hm.null, rfl⟩
  | array τ =>
    obtain ⟨e, he, -⟩ := h
    exact ⟨_, he, e, rfl⟩
  | object k =>
    obtain ⟨-, ids, hids⟩ := hm.object h
    exact ⟨_, hids, ids, rfl⟩

theorem HasType.index_lt (hm : ts.Models ρ) (h : ts.HasType ρ τ t) :
    t.index < ts.descriptors.size := by
  obtain ⟨d, hd, -⟩ := h.describes hm
  exact index_lt_of_descriptor? hd

/-- A handle has one type. -/
theorem HasType.unique (hm : ts.Models ρ) (hσ : ts.HasType ρ σ t) (hτ : ts.HasType ρ τ t) :
    σ = τ := by
  induction σ generalizing t τ with
  | array σ ih =>
    obtain ⟨d, hd, hdτ⟩ := hτ.describes hm
    obtain ⟨e, he, -, hσ⟩ := hσ
    obtain rfl := Option.some.inj (he.symm.trans hd)
    cases τ with
    | array τ =>
      obtain ⟨e', he', -, hτ⟩ := hτ
      obtain rfl : e = e' := by simpa [he] using he'
      rw [ih hσ hτ]
    | _ => simp [Describes] at hdτ
  | object k =>
    obtain ⟨d, hd, hdτ⟩ := hτ.describes hm
    obtain ⟨hne, ids, hids⟩ := hm.object hσ
    obtain rfl := Option.some.inj (hids.symm.trans hd)
    cases τ with
    | object k' => rw [hm.injective hσ hτ]
    | null => exact absurd hτ hne
    | _ => simp [Describes] at hdτ
  | null =>
    obtain rfl : t = .null := hσ
    obtain ⟨d, hd, hdτ⟩ := hτ.describes hm
    obtain rfl := Option.some.inj (hm.null.symm.trans hd)
    cases τ with
    | null => rfl
    | object k => exact absurd rfl (hm.object hτ).1
    | _ => simp [Describes] at hdτ
  | _ =>
    obtain ⟨d, hd, hdτ⟩ := hτ.describes hm
    obtain ⟨d', hd', hdσ⟩ := HasType.describes hm hσ
    obtain rfl := Option.some.inj (hd.symm.trans hd')
    cases τ <;> simp_all [Describes]

/-- Of two types, the first is that of a handle that only one type has. -/
theorem HasType.eq_iff (hm : ts.Models ρ) (ha : ts.HasType ρ σ a) (hb : ts.HasType ρ τ b)
    (hσ : ∀ α, σ ≠ .array α) : a = b ↔ σ = τ := by
  refine ⟨fun h => ha.unique hm (h ▸ hb), ?_⟩
  rintro rfl
  cases σ with
  | array α => exact absurd rfl (hσ α)
  | object k => exact Option.some.inj (ha.symm.trans hb)
  | _ => exact ha.trans hb.symm

theorem HasType.same_iff (hm : ts.Models ρ) (ha : ts.HasType ρ σ a) (hb : ts.HasType ρ τ b) :
    ts.same a b ↔ σ = τ := by
  induction σ generalizing a b τ with
  | array σ ih =>
    obtain ⟨e, he, hlt, hσ⟩ := ha
    obtain ⟨d, hd, hdτ⟩ := hb.describes hm
    rw [same, he, hd]
    cases τ with
    | array τ =>
      obtain ⟨e', he', hlt', hτ⟩ := hb
      obtain rfl := Option.some.inj (he'.symm.trans hd)
      simp [hlt, ih hσ hτ]
    | _ =>
      have hne : a ≠ b := by
        rintro rfl
        obtain rfl := Option.some.inj (he.symm.trans hd)
        simp [Describes] at hdτ
      rcases d with _ | _ | _ | _ | _ <;> simp_all [Describes]
  | _ =>
    obtain ⟨d, hd, hdσ⟩ := HasType.describes hm ha
    rw [← HasType.eq_iff hm ha hb (by simp), same, hd]
    rcases d with _ | _ | _ | _ | _ <;> simp_all [Describes]

theorem Describes.isReference_iff {d : Descriptor} (h : Describes d τ) :
    d.isReference ↔ τ.IsReference := by
  cases τ with
  | array τ =>
    obtain ⟨e, rfl⟩ := h
    simp [Ty.IsReference, Descriptor.isReference, Descriptor.isArray]
  | object k =>
    obtain ⟨ids, rfl⟩ := h
    simp [Ty.IsReference, Descriptor.isReference, Descriptor.isClass]
  | _ =>
    subst h
    simp [Ty.IsReference, Descriptor.isReference, Descriptor.isArray, Descriptor.isClass]

theorem HasType.isReference_iff (hm : ts.Models ρ) (h : ts.HasType ρ τ t) :
    ts.isReference t ↔ τ.IsReference := by
  obtain ⟨d, hd, hdτ⟩ := h.describes hm
  simp [isReference, hd, hdτ.isReference_iff]

theorem HasType.comparable_iff (hm : ts.Models ρ) (ha : ts.HasType ρ σ a)
    (hb : ts.HasType ρ τ b) : ts.comparable a b ↔ σ.Comparable τ := by
  have hnull : ts.HasType ρ .null .null := rfl
  simp only [comparable, Bool.or_eq_true, Bool.and_eq_true, decide_eq_true_eq,
    ha.same_iff hm hb, ha.isReference_iff hm, hb.isReference_iff hm,
    eq_comm (b := TypeId.null), hnull.eq_iff hm ha (by simp), hnull.eq_iff hm hb (by simp)]
  constructor
  · rintro ((rfl | ⟨rfl, h⟩) | ⟨rfl, h⟩)
    · exact .same _
    · exact .nullLeft h
    · exact .nullRight h
  · rintro (_ | h | h)
    · exact .inl (.inl rfl)
    · exact .inl (.inr ⟨rfl, h⟩)
    · exact .inr ⟨rfl, h⟩

/-- The array whose elements have no type. -/
theorem HasType.anyArray_iff (hm : ts.Models ρ) (h : ts.HasType ρ τ t) :
    ts.isArray t ∧ ts.element t = .none ↔ τ = .array .void := by
  obtain ⟨d, hd, hdτ⟩ := h.describes hm
  cases τ with
  | array τ =>
    obtain ⟨e, he, -, h⟩ := h
    have hvoid : ts.HasType ρ .void .none := rfl
    have heq := hvoid.eq_iff hm h (by simp)
    simp [isArray, element, he, Descriptor.isArray, Descriptor.element, eq_comm (b := TypeId.none),
      heq, eq_comm (b := Ty.void)]
  | object k =>
    obtain ⟨ids, rfl⟩ := hdτ
    simp [isArray, hd, Descriptor.isArray]
  | _ =>
    subst hdτ
    simp [isArray, hd, Descriptor.isArray]

theorem HasType.isArray_iff (hm : ts.Models ρ) (h : ts.HasType ρ τ t) :
    ts.isArray t ↔ ∃ α, τ = .array α := by
  obtain ⟨d, hd, hdτ⟩ := h.describes hm
  cases τ with
  | array τ =>
    obtain ⟨e, rfl⟩ := hdτ
    simp [isArray, hd, Descriptor.isArray]
  | object k =>
    obtain ⟨ids, rfl⟩ := hdτ
    simp [isArray, hd, Descriptor.isArray]
  | _ =>
    subst hdτ
    simp [isArray, hd, Descriptor.isArray]

theorem HasType.assignable_iff (hm : ts.Models ρ) (ha : ts.HasType ρ σ a)
    (hb : ts.HasType ρ τ b) : ts.assignable a b ↔ σ.Assignable τ := by
  have hnull : ts.HasType ρ .null .null := rfl
  simp only [assignable, Bool.or_eq_true, Bool.and_eq_true, decide_eq_true_eq, and_assoc,
    ha.same_iff hm hb, ha.isArray_iff hm, hb.isReference_iff hm, hb.anyArray_iff hm,
    eq_comm (b := TypeId.null), hnull.eq_iff hm ha (by simp)]
  constructor
  · rintro ((rfl | ⟨rfl, h⟩) | ⟨⟨α, rfl⟩, rfl⟩)
    · exact .same _
    · exact .null h
    · exact .anyArray α
  · rintro (_ | h | α)
    · exact .inl (.inl rfl)
    · exact .inl (.inr ⟨rfl, h⟩)
    · exact .inr ⟨⟨α, rfl⟩, rfl⟩

end Types

/-! ### Entries and operands -/

/-- The types of all parameters. Variable arguments come in an array. -/
def Static.Signature.parameters (σ : Signature) : List Ty :=
  σ.fixed ++ (σ.extra.map Ty.array).toList

namespace SymbolTable

variable (ρ : Classes) (t : SymbolTable)

/-- What is known of a method is what its signature says. -/
structure HasSignature (m : Method) (σ : Signature) : Prop where
  variadic : m.variadic = σ.extra.isSome
  count : m.parameters = σ.parameters.length
  leading : List.Forall₂ (fun id τ => ∃ e, t.entryAt? id = some e ∧ t.types.HasType ρ τ e.type)
    m.leading σ.parameters

def Means (e : Entry) : Denotation → Prop
  | .type τ => e.meaning = .typeName ∧ t.types.HasType ρ τ e.type
  | .constant τ v => e.meaning = .constant v ∧ t.types.HasType ρ τ e.type
  | .variable τ => (∃ slot level, e.meaning = .var slot level) ∧ t.types.HasType ρ τ e.type
  | .method σ => ∃ m, e.meaning = .method m ∧ t.types.HasType ρ σ.result e.type ∧
      t.HasSignature ρ m σ
  | .program => ∃ members, e.meaning = .program members

/-- The entry is declared under this name. -/
def Binds (id : EntryId) (n : String) (x : Denotation) : Prop :=
  id ≠ .none ∧ ∃ e, t.entryAt? id = some e ∧ e.name = n ∧ t.Means ρ e x

/-- The operand is that of the value. -/
def Denotes (x : Operand) : Value → Prop
  | .constant τ v => x.place = .constant v ∧ t.types.HasType ρ τ x.type
  | .variable τ => x.isVariable ∧ t.types.HasType ρ τ x.type
  | .temporary τ => x.place = .stack ∧ t.types.HasType ρ τ x.type
  | .method σ => ∃ id e m, x.place = .method id ∧ t.entryAt? id = some e ∧ e.meaning = .method m ∧
      t.types.HasType ρ σ.result x.type ∧ t.HasSignature ρ m σ

/-- What `t` knows is also known by `t'`, but for the fields of classes. -/
structure Below (ρ ρ' : Classes) (t t' : SymbolTable) : Prop where
  entries : ∀ id e, t.entryAt? id = some e → t'.entryAt? id = some e
  classes : ∀ k i, ρ k = some i → ρ' k = some i
  arrays : ∀ i e, t.types.descriptor? i = some (.array e) →
    t'.types.descriptor? i = some (.array e)

variable {ρ t} {ρ' : Classes} {t' : SymbolTable}

theorem Widens.below (h : t.Widens t') : Below ρ ρ t t' := by
  obtain ⟨types, rfl, hsub⟩ := h
  exact ⟨fun _ _ he => he, fun _ _ hk => hk, fun _ _ => hsub _ _⟩

theorem Widens.lookup? (h : t.Widens t') (n : String) : t'.lookup? n = t.lookup? n := by
  obtain ⟨types, rfl, -⟩ := h
  rfl

theorem HasSignature.mono (h : Below ρ ρ' t t') {m : Method} {σ : Signature}
    (hm : t.HasSignature ρ m σ) : t'.HasSignature ρ' m σ where
  variadic := hm.variadic
  count := hm.count
  leading := hm.leading.imp fun _ _ ⟨e, he, hτ⟩ =>
    ⟨e, h.entries _ _ he, hτ.mono h.classes h.arrays⟩

theorem Means.mono (h : Below ρ ρ' t t') {e : Entry} {x : Denotation} (hx : t.Means ρ e x) :
    t'.Means ρ' e x := by
  cases x with
  | method σ =>
    obtain ⟨m, hm, hresult, hσ⟩ := hx
    exact ⟨m, hm, hresult.mono h.classes h.arrays, hσ.mono h⟩
  | program => exact hx
  | _ => exact ⟨hx.1, hx.2.mono h.classes h.arrays⟩

theorem Binds.mono (h : Below ρ ρ' t t') {id : EntryId} {n : String} {x : Denotation}
    (hx : t.Binds ρ id n x) : t'.Binds ρ' id n x := by
  obtain ⟨hne, e, he, hn, hx⟩ := hx
  exact ⟨hne, e, h.entries _ _ he, hn, hx.mono h⟩

namespace Denotes

variable {x : Operand} {v : Value} {τ : Ty}

theorem type (h : t.Denotes ρ x v) (hv : v.type? = some τ) : t.types.HasType ρ τ x.type := by
  cases v with
  | method σ => contradiction
  | _ =>
    obtain rfl := Option.some.inj hv
    exact h.2

/-- The type of an operand is that of a type, also for a method. -/
theorem exists_type (h : t.Denotes ρ x v) : ∃ τ, t.types.HasType ρ τ x.type ∧
    (x.loading = none → v.type? = some τ) := by
  cases v with
  | method σ =>
    obtain ⟨id, e, m, hplace, -, -, hτ, -⟩ := h
    exact ⟨_, hτ, fun hload => by simp [Operand.loading, hplace] at hload⟩
  | _ => exact ⟨_, h.2, fun _ => rfl⟩

theorem loading_iff (h : t.Denotes ρ x v) : x.loading = none ↔ ∃ τ, v.type? = some τ := by
  refine ⟨fun hload => ?_, fun ⟨τ, hv⟩ => ?_⟩
  · obtain ⟨τ, -, hτ⟩ := h.exists_type
    exact ⟨τ, hτ hload⟩
  · cases v with
    | method σ => contradiction
    | «variable» σ =>
      have hx := h.1
      unfold Operand.isVariable at hx
      unfold Operand.loading
      split at hx <;> simp_all
    | _ => simp [Operand.loading, h.1]

theorem storing_iff (h : t.Denotes ρ x v) : x.storing = none ↔ ∃ τ, v = .variable τ := by
  rw [Operand.storing]
  cases v with
  | «variable» σ => simp [h.1]
  | method σ =>
    obtain ⟨id, e, m, hplace, -⟩ := h
    simp [Operand.isVariable, hplace]
  | _ => simp [Operand.isVariable, h.1]

theorem constant?_eq (h : t.Denotes ρ x v) :
    x.constant? = match v with
      | .constant _ k => some k
      | _ => none := by
  cases v with
  | «variable» σ =>
    have hx := h.1
    unfold Operand.isVariable at hx
    unfold Operand.constant?
    split at hx <;> simp_all
  | method σ =>
    obtain ⟨id, e, m, hplace, -⟩ := h
    simp [Operand.constant?, hplace]
  | _ => simp [Operand.constant?, h.1]

theorem fits_iff {ts : Types} {σ : Ty} {target : TypeId} (h : t.Denotes ρ x v)
    (hm : ts.Models ρ) (hv : v.type? = some σ) (hx : ts.HasType ρ σ x.type)
    (hτ : ts.HasType ρ τ target) : x.fits ts target ↔ v.Fits τ := by
  have hint : ts.HasType ρ .int .int := rfl
  have hchar : ts.HasType ρ .char .char := rfl
  have hσi := hint.eq_iff hm hx (by simp)
  have hσc := hchar.eq_iff hm hx (by simp)
  have hτi := hint.eq_iff hm hτ (by simp)
  have hτc := hchar.eq_iff hm hτ (by simp)
  simp only [Operand.fits, h.constant?_eq, Bool.or_eq_true, hx.assignable_iff hm hτ]
  constructor
  · rintro (hassign | hconstant)
    · exact .assign hv hassign
    · cases v with
      | constant σ' k =>
        obtain rfl := Option.some.inj hv
        simp only [Bool.and_eq_true, Bool.or_eq_true, decide_eq_true_eq, eq_comm (b := TypeId.int),
          eq_comm (b := TypeId.char), hσi, hσc, hτi, hτc] at hconstant
        obtain ⟨hσ, rfl | ⟨⟨rfl, hlow⟩, hhigh⟩⟩ := hconstant
        · exact .int (hσ.imp Eq.symm Eq.symm)
        · exact .char (hσ.imp Eq.symm Eq.symm) hlow hhigh
      | _ => contradiction
  · intro hfits
    cases hfits with
    | assign hv' hassign =>
      obtain rfl := Option.some.inj (hv.symm.trans hv')
      exact .inl hassign
    | int hσ =>
      obtain rfl := Option.some.inj hv
      right
      simp only [Bool.and_eq_true, Bool.or_eq_true, decide_eq_true_eq, eq_comm (b := TypeId.int),
        eq_comm (b := TypeId.char), hσi, hσc, hτi]
      exact ⟨hσ.imp Eq.symm Eq.symm, .inl trivial⟩
    | char hσ hlow hhigh =>
      obtain rfl := Option.some.inj hv
      right
      simp only [Bool.and_eq_true, Bool.or_eq_true, decide_eq_true_eq, eq_comm (b := TypeId.int),
        eq_comm (b := TypeId.char), hσi, hσc, hτi, hτc]
      exact ⟨hσ.imp Eq.symm Eq.symm, .inr ⟨⟨trivial, hlow⟩, hhigh⟩⟩

end Denotes

end SymbolTable

/-! ### Scopes -/

def Static.Denotation.isVariable : Denotation → Bool
  | .variable _ => true
  | _ => false

/-- The scope declares the same names. -/
structure Scope.Agrees (ρ : Classes) (t : SymbolTable) (sc : Scope) (Δ : Static.Scope) : Prop where
  locals : List.Forall₂ (fun id b => t.Binds ρ id b.1 b.2) sc.locals.toList Δ
  found : ∀ n id, sc.find? n = some id → ∃ x, Δ.lookup n = some x ∧ t.Binds ρ id n x
  fresh : ∀ n, sc.find? n = none → Δ.lookup n = none
  count : sc.variableCount = Δ.countP (·.2.isVariable)

namespace Scope.Agrees

variable {ρ ρ' : Classes} {t t' : SymbolTable} {sc : Scope} {Δ : Static.Scope} {n : String}

theorem mono (h : SymbolTable.Below ρ ρ' t t') (hs : sc.Agrees ρ t Δ) : sc.Agrees ρ' t' Δ where
  locals := hs.locals.imp fun _ _ hb => hb.mono h
  found := fun n id hid => by
    obtain ⟨x, hx, hb⟩ := hs.found n id hid
    exact ⟨x, hx, hb.mono h⟩
  fresh := hs.fresh
  count := hs.count

theorem empty : Scope.empty.Agrees ρ t [] where
  locals := .nil
  found := by simp
  fresh := by simp
  count := rfl

theorem insert (hs : sc.Agrees ρ t Δ) {id : EntryId} {x : Denotation}
    (hfresh : sc.find? n = none) (hx : t.Binds ρ id n x) :
    (sc.insert n id x.isVariable).Agrees ρ t (Δ ++ [(n, x)]) where
  locals := by
    rw [Scope.locals_insert, Array.toList_push]
    exact List.rel_append hs.locals (.cons hx .nil)
  found := by
    intro n' id' hid
    rw [Scope.find?_insert] at hid
    split at hid
    · next hn =>
      subst hn
      obtain rfl := Option.some.inj hid
      refine ⟨x, ?_, hx⟩
      simp [List.lookup_append, hs.fresh n hfresh]
    · obtain ⟨x', hx', hb⟩ := hs.found n' id' hid
      exact ⟨x', by simp [List.lookup_append, hx'], hb⟩
  fresh := by
    intro n' hn'
    rw [Scope.find?_insert] at hn'
    split at hn'
    · contradiction
    · next hne =>
      have hlookup : List.lookup n' [(n, x)] = none := by
        simp [List.lookup_cons, beq_eq_false_iff_ne.2 (Ne.symm hne)]
      rw [List.lookup_append, hs.fresh n' hn', hlookup]
      rfl

  count := by
    rw [List.countP_append, ← hs.count]
    cases h : x.isVariable <;> simp [Scope.insert, h]

end Scope.Agrees

/-! ### Sessions -/

/-- The open scopes of the table are those of the context, and so are the fields of the classes. -/
structure SymbolTable.Agrees (ρ : Classes) (Γ : Context) (t : SymbolTable) : Prop where
  types : t.types.Models ρ
  scopes : List.Forall₂ (fun sc Δ => sc.Agrees ρ t Δ) (t.inner ++ [t.outermost])
    (Γ.scope :: Γ.around)
  classes : ∀ k i, ρ k = some i → ∃ ids, t.types.descriptor? i = some (.object ids) ∧
    List.Forall₂ (fun id b => t.Binds ρ id b.1 b.2 ∧ b.2.isVariable) ids
      ((Γ.classes.lookup k).getD [])

/-- Besides, the session is in a method of the same type. -/
structure Session.Agrees (ρ : Classes) (Γ : Context) (s : Session) : Prop where
  table : s.table.Agrees ρ Γ
  result : s.table.types.HasType ρ Γ.result s.returnType

namespace SymbolTable.Agrees

variable {ρ : Classes} {Γ : Context} {t t' : SymbolTable}

theorem widens (h : t.Agrees ρ Γ) (hw : t.Widens t') : t'.Agrees ρ Γ := by
  have hbelow := hw.below (ρ := ρ)
  obtain ⟨types, rfl, hsub⟩ := hw
  refine ⟨h.types.mono hsub, h.scopes.imp fun _ _ hs => hs.mono hbelow, fun k i hk => ?_⟩
  obtain ⟨ids, hids, hfields⟩ := h.classes k i hk
  exact ⟨ids, hsub _ _ hids, hfields.imp fun _ _ hb => ⟨hb.1.mono hbelow, hb.2⟩⟩

/-- A name that the context declares is bound in the table. -/
theorem lookup (h : t.Agrees ρ Γ) (n : String) :
    match t.lookup? n with
    | some id => ∃ x, Γ.lookup n = some x ∧ t.Binds ρ id n x
    | none => Γ.lookup n = none := by
  have heq : t.lookup? n = (t.inner ++ [t.outermost]).findSome? (·.find? n) := by
    simp [lookup?, List.findSome?_append]
  have hscopes := h.scopes
  rw [heq, Context.lookup]
  generalize t.inner ++ [t.outermost] = scs at hscopes
  generalize Γ.scope :: Γ.around = Δs at hscopes
  induction hscopes with
  | nil => rfl
  | @cons sc Δ scs Δs hs _ ih =>
    rw [List.findSome?_cons, List.findSome?_cons]
    rcases hfind : sc.find? n with _ | id
    · rw [hs.fresh n hfind]
      exact ih
    · obtain ⟨x, hx, hb⟩ := hs.found n id hfind
      rw [hx]
      exact ⟨x, rfl, hb⟩

/-- Among bound entries, the first of a name is that of the name. -/
theorem find?_of_binds {ids : List EntryId} {fields : Static.Scope}
    (h : List.Forall₂ (fun id b => t.Binds ρ id b.1 b.2 ∧ b.2.isVariable) ids fields) (n : String) :
    match ids.find? fun id => (t.entryAt? id).any (·.name == n) with
    | some id => ∃ τ, fields.lookup n = some (.variable τ) ∧ t.Binds ρ id n (.variable τ)
    | none => fields.lookup n = none := by
  induction h with
  | nil => rfl
  | @cons id b ids fields hb _ ih =>
    obtain ⟨⟨hne, e, he, hname, hx⟩, hvar⟩ := hb
    obtain ⟨m, x⟩ := b
    rw [List.find?_cons, List.lookup_cons, he]
    by_cases hn : m = n
    · subst hn
      obtain ⟨τ, rfl⟩ : ∃ τ, x = .variable τ := by
        cases x <;> simp_all [Static.Denotation.isVariable]
      simp only [Option.any_some, hname, beq_self_eq_true]
      exact ⟨τ, rfl, hne, e, he, hname, hx⟩
    · have hn' : (e.name == n) = false := by simpa [hname] using hn
      have hn'' : (n == m) = false := by simpa using Ne.symm hn
      simp only [Option.any_some, hn', hn'']
      exact ih

/-- A field that the class has is found. -/
theorem findField (h : t.Agrees ρ Γ) {k : String} {i : TypeId} (hk : ρ k = some i) (n : String) :
    match t.findField n i with
    | .ok id => ∃ fields τ, Γ.classes.lookup k = some fields ∧
        fields.lookup n = some (.variable τ) ∧ t.Binds ρ id n (.variable τ)
    | .error _ => ∀ fields, Γ.classes.lookup k = some fields → fields.lookup n = none := by
  obtain ⟨ids, hids, hfields⟩ := h.classes k i hk
  have heq : t.types.fields i = ids := by simp [Types.fields, hids, Descriptor.fields]
  have hfind := find?_of_binds hfields n
  rcases hf : ids.find? fun id => (t.entryAt? id).any (·.name == n) with _ | id
  · rw [SymbolTable.findField, heq, hf]
    rw [hf] at hfind
    intro fields hfields
    rwa [hfields] at hfind
  · rw [SymbolTable.findField, heq, hf]
    rw [hf] at hfind
    obtain ⟨τ, hτ, hb⟩ := hfind
    rcases hlookup : Γ.classes.lookup k with _ | fields
    · simp [hlookup] at hτ
    · rw [hlookup] at hτ
      exact ⟨fields, τ, rfl, hτ, hb⟩

end SymbolTable.Agrees

end MicroJava
