import MicroJava.Proofs.Patching

/-!
# Drafts

Code before its labels are known is a draft: bytes, and operands that name labels. With a number for
each operand, a draft becomes bytes (`renderFrom`), and overwriting one operand is the same as rendering
the draft with another number there (`overwrite_renderFrom`).

`Drafts a fs` says that the code of an assembly is the draft `fs`: an operand of a label holds its
distance once the label is defined, which its two bytes can hold, and zero until then, and the operands
of a pending label are those that the label records. Unlike a listing, a draft does not care where
instructions start, so it describes code that is written in any way.
-/

namespace MicroJava

open Emission

/-- A part of code before its labels are known. -/
inductive Fragment where
  | bytes (bs : List UInt8)
  /-- The operand of a jump to a label. -/
  | operand (l : Label)
  deriving DecidableEq, Inhabited

namespace Fragment

def size : Fragment → Nat
  | bytes bs => bs.length
  | operand _ => 2

/-- The bytes of a fragment at the position `p`, where `fill` gives the number of an operand. -/
def encodeAt (fill : Nat → Label → Int) (p : Nat) : Fragment → List UInt8
  | bytes bs => bs
  | operand l => bigEndian 2 (fill p l)

@[simp] theorem length_encodeAt (fill : Nat → Label → Int) (p : Nat) (f : Fragment) :
    (f.encodeAt fill p).length = f.size := by
  cases f <;> simp [encodeAt, size]

end Fragment

/-- The length of a draft in bytes. -/
def draftSize (fs : List Fragment) : Nat := (fs.map Fragment.size).sum

@[simp] theorem draftSize_nil : draftSize [] = 0 := rfl

@[simp] theorem draftSize_cons (f : Fragment) (fs : List Fragment) :
    draftSize (f :: fs) = f.size + draftSize fs := by
  simp [draftSize]

@[simp] theorem draftSize_append (fs gs : List Fragment) :
    draftSize (fs ++ gs) = draftSize fs + draftSize gs := by
  simp [draftSize]

/-- The bytes of a draft whose first fragment stands at the position `p`. -/
def renderFrom (fill : Nat → Label → Int) : Nat → List Fragment → List UInt8
  | _, [] => []
  | p, f :: fs => f.encodeAt fill p ++ renderFrom fill (p + f.size) fs

/-- The positions of the operands of a label, in a draft whose first fragment stands at the position
`p`. -/
def operandsFrom (l : Label) : Nat → List Fragment → List Nat
  | _, [] => []
  | p, .operand m :: fs => (if m = l then [p] else []) ++ operandsFrom l (p + 2) fs
  | p, .bytes bs :: fs => operandsFrom l (p + bs.length) fs

section Rendering

variable {fill fill' : Nat → Label → Int}

theorem renderFrom_append (p : Nat) (fs gs : List Fragment) :
    renderFrom fill p (fs ++ gs) =
      renderFrom fill p fs ++ renderFrom fill (p + draftSize fs) gs := by
  induction fs generalizing p with
  | nil => simp [renderFrom]
  | cons f fs ih => simp [renderFrom, ih, Nat.add_assoc]

@[simp] theorem length_renderFrom (p : Nat) (fs : List Fragment) :
    (renderFrom fill p fs).length = draftSize fs := by
  induction fs generalizing p with
  | nil => rfl
  | cons f fs ih => simp [renderFrom, ih]

theorem operandsFrom_append (l : Label) (p : Nat) (fs gs : List Fragment) :
    operandsFrom l p (fs ++ gs) = operandsFrom l p fs ++ operandsFrom l (p + draftSize fs) gs := by
  induction fs generalizing p with
  | nil => simp [operandsFrom]
  | cons f fs ih => cases f <;> simp [operandsFrom, ih, Fragment.size, Nat.add_assoc]

theorem mem_operandsFrom {l : Label} {p q : Nat} {fs : List Fragment} :
    q ∈ operandsFrom l p fs ↔
      ∃ pre post, fs = pre ++ .operand l :: post ∧ q = p + draftSize pre := by
  constructor
  · induction fs generalizing p with
    | nil => simp [operandsFrom]
    | cons f fs ih =>
      have hrest : q ∈ operandsFrom l (p + f.size) fs →
          ∃ pre post, f :: fs = pre ++ .operand l :: post ∧ q = p + draftSize pre := by
        intro h
        obtain ⟨pre, post, rfl, rfl⟩ := ih h
        exact ⟨f :: pre, post, rfl, by simp only [draftSize_cons]; omega⟩
      cases f with
      | bytes bs => exact hrest
      | operand m =>
        intro h
        rw [operandsFrom, List.mem_append] at h
        rcases h with h | h
        · split at h
          · next hm =>
            subst hm
            exact ⟨[], fs, rfl, by simpa using h⟩
          · simp at h
        · exact hrest h
  · rintro ⟨pre, post, rfl, rfl⟩
    rw [operandsFrom_append]
    simp [operandsFrom]

/-- The bytes depend on the numbers of the operands only. -/
theorem renderFrom_congr {p : Nat} {fs : List Fragment}
    (h : ∀ l, ∀ q ∈ operandsFrom l p fs, fill q l = fill' q l) :
    renderFrom fill p fs = renderFrom fill' p fs := by
  induction fs generalizing p with
  | nil => rfl
  | cons f fs ih =>
    cases f with
    | bytes bs => rw [renderFrom, renderFrom, Fragment.size, ih h]; rfl
    | operand m =>
      have hm : fill p m = fill' p m := h m p (by simp [operandsFrom])
      have hrest : renderFrom fill (p + 2) fs = renderFrom fill' (p + 2) fs :=
        ih fun l q hq => h l q (by simp [operandsFrom, hq])
      simp only [renderFrom, Fragment.encodeAt, Fragment.size, hm, hrest]

/-- Two operands do not overlap. -/
theorem operand_unique {pre pre' post post' : List Fragment} {l l' : Label}
    (h : pre ++ .operand l :: post = pre' ++ .operand l' :: post')
    (hsize : draftSize pre = draftSize pre') : l = l' := by
  induction pre generalizing pre' with
  | nil =>
    cases pre' with
    | nil => simp_all
    | cons f pre' =>
      obtain ⟨rfl, -⟩ := List.cons.inj h
      simp only [draftSize_nil, draftSize_cons, Fragment.size] at hsize
      omega
  | cons f pre ih =>
    cases pre' with
    | nil =>
      obtain ⟨rfl, -⟩ := List.cons.inj h
      simp only [draftSize_nil, draftSize_cons, Fragment.size] at hsize
      omega
    | cons f' pre' =>
      simp only [List.cons_append, List.cons.injEq] at h
      obtain ⟨rfl, h⟩ := h
      exact ih h (by simpa using hsize)

/-- What is an operand of one label is an operand of no other one. -/
theorem mem_operandsFrom_iff_eq {l m : Label} {q : Nat} {fs : List Fragment}
    (hq : q ∈ operandsFrom m 0 fs) : q ∈ operandsFrom l 0 fs ↔ m = l := by
  refine ⟨fun hq' => ?_, fun hm => hm ▸ hq⟩
  obtain ⟨pre, post, hfs, rfl⟩ := mem_operandsFrom.1 hq
  obtain ⟨pre', post', hfs', hsize⟩ := mem_operandsFrom.1 hq'
  exact operand_unique (hfs.symm.trans hfs') (by omega)

/-- Overwriting an operand is rendering the draft with another number. -/
theorem overwrite_renderFrom {l : Label} {q : Nat} {fs : List Fragment} {code : Array UInt8}
    (hcode : code.toList = renderFrom fill 0 fs) (hq : q ∈ operandsFrom l 0 fs) (v : Int) :
    (Assembly.overwrite code q (bigEndian 2 v)).toList =
      renderFrom (fun r m => if r = q then v else fill r m) 0 fs := by
  obtain ⟨pre, post, rfl, rfl⟩ := mem_operandsFrom.1 hq
  rw [Nat.zero_add]
  -- the operands before and behind stay as they are
  have hfront : renderFrom (fun r m => if r = draftSize pre then v else fill r m) 0 pre =
      renderFrom fill 0 pre := by
    refine renderFrom_congr fun m r hr => if_neg ?_
    obtain ⟨p, q, rfl, rfl⟩ := mem_operandsFrom.1 hr
    simp only [draftSize_append, draftSize_cons, Fragment.size]
    omega
  have hback : renderFrom (fun r m => if r = draftSize pre then v else fill r m)
      (draftSize pre + 2) post = renderFrom fill (draftSize pre + 2) post := by
    refine renderFrom_congr fun m r hr => if_neg ?_
    obtain ⟨p, q, -, rfl⟩ := mem_operandsFrom.1 hr
    omega
  have hsplit : code.toList = renderFrom fill 0 pre ++ bigEndian 2 (fill (draftSize pre) l) ++
      renderFrom fill (draftSize pre + 2) post := by
    rw [hcode, renderFrom_append, renderFrom, Fragment.encodeAt, Fragment.size, Nat.zero_add]
    simp
  have hlength : (renderFrom fill 0 pre).length = draftSize pre := length_renderFrom 0 pre
  rw [← hlength, toList_overwrite code _ _ _ _ hsplit (by simp), hlength, renderFrom_append,
    renderFrom, Fragment.encodeAt, Fragment.size, Nat.zero_add, hfront, hback, if_pos rfl,
    List.append_assoc]

end Rendering

/-- The code of an assembly is a draft. -/
structure Drafts (a : Assembly) (fs : List Fragment) : Prop where
  code : a.code.toList = renderFrom a.fill 0 fs
  pending : ∀ l ps, a.label? l = some (.pending ps) → ps = operandsFrom l 0 fs
  known : ∀ l, .operand l ∈ fs → l.index < a.labels.size
  fit : ∀ l, ∀ q ∈ operandsFrom l 0 fs, InReach (a.fill q l)

namespace Drafts

variable {a a' : Assembly} {fs gs : List Fragment} {l : Label}

theorem here (h : Drafts a fs) : a.here = draftSize fs := by
  rw [Assembly.here, ← Array.length_toList, h.code, length_renderFrom]

/-- The operands that wait for a label are in the code. -/
theorem position_le (h : Drafts a fs) (l : Label) (ps : List Nat)
    (hl : a.label? l = some (.pending ps)) : ∀ p ∈ ps, p + 2 ≤ a.here := by
  intro p hp
  rw [h.pending l ps hl] at hp
  obtain ⟨pre, post, rfl, rfl⟩ := mem_operandsFrom.1 hp
  simp only [h.here, draftSize_append, draftSize_cons, Fragment.size]
  omega

theorem nil : Drafts {} [] where
  code := rfl
  pending := by simp [Assembly.label?]
  known := by simp
  fit := by simp [operandsFrom]

/-- Bytes at the end. -/
theorem append (h : Drafts a fs) {bs : List UInt8} (hcode : a'.code.toList = a.code.toList ++ bs)
    (hlabels : a'.labels = a.labels) : Drafts a' (fs ++ [.bytes bs]) := by
  have hlabel : a'.label? = a.label? := by
    funext l
    rw [Assembly.label?, hlabels, Assembly.label?]
  have hfill : a'.fill = a.fill := by
    refine Assembly.fill_congr ?_
    funext l
    simp only [Assembly.address?, hlabel]
  have hoperands : ∀ l, operandsFrom l 0 (fs ++ [.bytes bs]) = operandsFrom l 0 fs := fun l => by
    simp [operandsFrom_append, operandsFrom]
  refine ⟨?_, fun l ps hps => ?_, fun l hl => ?_, fun l q hq => ?_⟩
  · rw [hfill, hcode, h.code, renderFrom_append]
    simp [renderFrom, Fragment.encodeAt]
  · rw [hoperands]
    exact h.pending l ps (hlabel ▸ hps)
  · rw [hlabels]
    exact h.known l (by simpa using hl)
  · rw [hfill]
    exact h.fit l q (hoperands l ▸ hq)

theorem newLabel (h : Drafts a fs) : Drafts a.newLabel.2 fs where
  code := by
    rw [Assembly.fill_congr a.address?_newLabel]
    exact h.code
  pending := by
    intro l ps hps
    rw [Assembly.label?_newLabel] at hps
    split at hps
    · next hl =>
      obtain rfl := LabelState.pending.inj (Option.some.inj hps)
      -- a label that did not exist yet has no operands
      refine (List.eq_nil_iff_forall_not_mem.2 fun q hq => ?_).symm
      obtain ⟨pre, post, rfl, -⟩ := mem_operandsFrom.1 hq
      have := h.known l (by simp)
      omega
    · exact h.pending l ps hps
  known := by
    intro l hl
    have := h.known l hl
    simp only [Assembly.newLabel, Array.size_push]
    omega
  fit := by
    rw [Assembly.fill_congr a.address?_newLabel]
    exact h.fit

theorem mem_operandsFrom_snoc {l m : Label} {q : Nat}
    (h : q ∈ operandsFrom l 0 (fs ++ [.operand m])) :
    q ∈ operandsFrom l 0 fs ∨ m = l ∧ q = draftSize fs := by
  rw [operandsFrom_append, List.mem_append, Nat.zero_add] at h
  refine h.imp id fun h => ?_
  by_cases hm : m = l <;> simp_all [operandsFrom]

/-- An operand of a label that is defined. -/
theorem resolved (h : Drafts a fs) {A : Nat} (hl : a.label? l = some (.resolved A))
    (hreach : InReach ((A : Int) - (a.here + 2))) :
    Drafts (a.append (bigEndian 2 ((A : Int) - (a.here + 2)))) (fs ++ [.operand l]) := by
  have hfill : a.fill (draftSize fs) l = (A : Int) - (a.here + 2) := by
    rw [Assembly.fill_of_resolved hl, h.here]
  refine ⟨?_, fun m ps hps => ?_, fun m hm => ?_, fun m q hq => ?_⟩
  · show (a.code ++ bigEndian 2 ((A : Int) - (a.here + 2))).toList = renderFrom a.fill 0 _
    rw [Array.toList_appendList, h.code, renderFrom_append, Nat.zero_add]
    simp [renderFrom, Fragment.encodeAt, hfill]
  · have hps : a.label? m = some (.pending ps) := hps
    have hne : l ≠ m := by
      rintro rfl
      simp [hl] at hps
    rw [operandsFrom_append, h.pending m ps hps]
    simp [operandsFrom, hne]
  · rcases List.mem_append.1 hm with hm | hm
    · exact h.known m hm
    · obtain rfl : m = l := by simpa using hm
      exact a.index_lt_of_label? hl
  · show InReach (a.fill q m)
    rcases mem_operandsFrom_snoc hq with hq | ⟨rfl, rfl⟩
    · exact h.fit m q hq
    · rwa [hfill]

/-- An operand of a label that is not defined yet. -/
theorem waiting (h : Drafts a fs) {ps : List Nat} (hl : a.label? l = some (.pending ps)) :
    Drafts ((a.setLabel l (.pending (ps ++ [a.here]))).append (bigEndian 2 0))
      (fs ++ [.operand l]) := by
  have hlabel : ∀ m, ((a.setLabel l (.pending (ps ++ [a.here]))).append (bigEndian 2 0)).label? m =
      if m = l then some (.pending (ps ++ [a.here])) else a.label? m :=
    Assembly.label?_setLabel_of_known hl _
  have haddress : ((a.setLabel l (.pending (ps ++ [a.here]))).append (bigEndian 2 0)).address? =
      a.address? := Assembly.address?_setLabel_pending hl _
  have hfill : a.fill (draftSize fs) l = 0 := Assembly.fill_of_pending hl _
  refine ⟨?_, fun m qs hqs => ?_, fun m hm => ?_, fun m q hq => ?_⟩
  · rw [Assembly.fill_congr haddress]
    show (a.code ++ bigEndian 2 0).toList = _
    rw [Array.toList_appendList, h.code, renderFrom_append, Nat.zero_add]
    simp [renderFrom, Fragment.encodeAt, hfill]
  · rw [hlabel] at hqs
    rw [operandsFrom_append, Nat.zero_add]
    by_cases hm : m = l
    · subst hm
      rw [if_pos rfl] at hqs
      obtain rfl := LabelState.pending.inj (Option.some.inj hqs)
      rw [h.pending m ps hl, h.here]
      simp [operandsFrom]
    · rw [if_neg hm] at hqs
      rw [h.pending m qs hqs]
      simp [operandsFrom, Ne.symm hm]
  · simp only [Assembly.append, Assembly.setLabel, Array.size_setIfInBounds]
    rcases List.mem_append.1 hm with hm | hm
    · exact h.known m hm
    · obtain rfl : m = l := by simpa using hm
      exact a.index_lt_of_label? hl
  · rw [Assembly.fill_congr haddress]
    rcases mem_operandsFrom_snoc hq with hq | ⟨rfl, rfl⟩
    · exact h.fit m q hq
    · rw [hfill]
      exact ⟨by decide, by decide⟩

/-! ### Defining a label -/

/-- The label stands for the address of the next instruction from now on, and its operands hold their
distances. -/
theorem define (h : Drafts a fs) {u : Unit} (hs : Succeeds (Emission.define l) a u a') :
    Drafts a' fs ∧ a'.address? = fun m => if m = l then some a.here else a.address? m := by
  have hrender : ∀ ps, a.label? l = some (.pending ps) → Patchwork (renderFrom · 0 fs) ps := by
    intro ps hps p hp code fill v hcode
    rw [h.pending l ps hps] at hp
    exact overwrite_renderFrom hcode hp v
  obtain ⟨ps, hl, hdefined⟩ := Defined.of_succeeds h.code hrender hs
  obtain rfl : ps = operandsFrom l 0 fs := h.pending l ps hl
  -- the patched operands are those of the label
  have hfill : ∀ m, ∀ q ∈ operandsFrom m 0 fs, a'.fill q m =
      if q ∈ operandsFrom l 0 fs then (a.here : Int) - (q + 2) else a.fill q m := by
    intro m q hq
    simp only [Assembly.fill, hdefined.address, mem_operandsFrom_iff_eq hq]
    by_cases hm : m = l
    · rw [if_pos hm, if_pos hm]
    · rw [if_neg hm, if_neg hm]
  refine ⟨⟨?_, fun m qs hqs => h.pending m qs (hdefined.pending hqs), fun m hm => ?_,
    fun m q hq => ?_⟩, hdefined.address⟩
  · rw [hdefined.code]
    exact renderFrom_congr fun m q hq => (hfill m q hq).symm
  · rw [hdefined.size]
    exact h.known m hm
  · rw [hfill m q hq]
    split
    · next hmem => exact hdefined.reach q hmem
    · exact h.fit m q hq

end Drafts

end MicroJava
