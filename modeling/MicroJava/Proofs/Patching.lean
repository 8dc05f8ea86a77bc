import Mathlib.Order.BooleanAlgebra.Set
import MicroJava.Proofs.Layout

/-!
# Patching never goes wrong

The operands that wait for a label lie in the code, and the labels that are defined stand in it
(`Assembly.Patchable`), so an emission that keeps to the rules has one fault only: a jump or call that
is too far, with more code behind it than it can cross (`Assembly.Overruns`). The rules are that a jump
goes to a label that exists (`Emission.safe_jumpTo`), that a call goes backwards (`Emission.safe_call`),
and that a label is defined once (`Emission.safe_define`).
-/

namespace MicroJava

open Emission

namespace Assembly

variable (a : Assembly)

/-- The labels that are not defined yet. -/
def undefined : Set Label := {l | ∃ ps, a.label? l = some (.pending ps)}

/-- The operands that wait for a label are in the code, and the labels stand in the code. -/
structure Patchable : Prop where
  positions : ∀ l ps, a.label? l = some (.pending ps) → ∀ p ∈ ps, p + 2 ≤ a.here
  addresses : ∀ l A, a.label? l = some (.resolved A) → A ≤ a.here

/-- The fault is a jump that is too far, and the code is longer than a jump can reach. -/
def Overruns (f : Fault) : Prop :=
  ∃ position d, f = .jumpOutOfRange position d ∧ ¬InReach d ∧ 32767 ≤ a.here

variable {a}

/-- Code that grows without a change to the labels. -/
theorem Patchable.grow {a' : Assembly} (h : a.Patchable) (hlabels : a'.labels = a.labels)
    (hhere : a.here ≤ a'.here) : a'.Patchable ∧ a'.undefined = a.undefined := by
  have hlabel : ∀ l, a'.label? l = a.label? l := fun l => by rw [label?, hlabels, label?]
  refine ⟨⟨fun l ps hps p hp => ?_, fun l A hA => ?_⟩, ?_⟩
  · exact Nat.le_trans (h.positions l ps (hlabel l ▸ hps) p hp) hhere
  · exact Nat.le_trans (h.addresses l A (hlabel l ▸ hA)) hhere
  · simp only [undefined, hlabel]

end Assembly

/-! ### Emissions -/

namespace Emission

variable {ε α β : Type}

/-- The emission writes code and leaves the labels alone, whether it fails or not. -/
def Plain (e : Emission ε α) : Prop :=
  ∀ a, (e.outcome a).2.labels = a.labels ∧ a.here ≤ (e.outcome a).2.here

/-- The emission never fails. -/
def Total (e : Emission ε α) : Prop := ∀ a, ∃ x, (e.outcome a).1 = .ok x

theorem plain_pure (x : α) : Plain (pure x : Emission ε α) := fun _ => ⟨rfl, Nat.le_refl _⟩

theorem plain_throw (p : ε) : Plain (throw p : Emission ε α) := fun _ => ⟨rfl, Nat.le_refl _⟩

theorem plain_emit (op : Opcode) (operands : List Int) :
    Plain (emit op operands : Emission ε Unit) := fun a => by
  refine ⟨rfl, ?_⟩
  show a.code.size ≤ (a.code ++ op.encode operands).size
  simp [← Array.length_toList]

theorem plain_bind {e : Emission ε α} {f : α → Emission ε β} (he : Plain e)
    (hf : ∀ x, Plain (f x)) : Plain (e >>= f) := by
  intro a
  have h := he a
  rw [outcome_bind]
  rcases hr : outcome e a with ⟨p | x, a₁⟩
  · rwa [hr] at h
  · rw [hr] at h
    exact ⟨(hf x a₁).1.trans h.1, Nat.le_trans h.2 (hf x a₁).2⟩

theorem total_pure (x : α) : Total (pure x : Emission ε α) := fun _ => ⟨x, rfl⟩

theorem total_emit (op : Opcode) (operands : List Int) :
    Total (emit op operands : Emission ε Unit) := fun _ => ⟨(), rfl⟩

theorem total_bind {e : Emission ε α} {f : α → Emission ε β} (he : Total e)
    (hf : ∀ x, Total (f x)) : Total (e >>= f) := by
  intro a
  obtain ⟨x, hx⟩ := he a
  rw [outcome_bind]
  rcases hr : outcome e a with ⟨p | y, a₁⟩
  · simp [hr] at hx
  · exact hf y a₁

theorem plain_constant (v : Int32) : Plain (constant v : Emission ε Unit) := plain_emit _ _

theorem plain_load (x : Operand) : Plain (load x) := by
  unfold load
  split
  all_goals first | exact plain_emit _ _ | exact plain_pure _ | exact plain_throw _

theorem plain_store (x : Operand) : Plain (store x) := by
  unfold store
  split
  all_goals first | exact plain_emit _ _ | exact plain_throw _

theorem plain_assign (target value : Operand) (operator : Option Opcode) :
    Plain (assign target value operator) := by
  refine plain_bind (plain_load value) fun _ => plain_bind ?_ fun _ => plain_store target
  rcases operator with _ | op
  · exact plain_pure _
  · exact plain_emit _ _

theorem plain_loadForUpdate (x : Operand) : Plain (loadForUpdate x) := by
  unfold loadForUpdate
  split
  all_goals first
    | exact plain_load x
    | exact plain_bind (plain_emit _ _) fun _ => plain_load x
    | exact plain_throw _

theorem plain_incrementPlace (x : Operand) (step : Int32) : Plain (incrementPlace x step) := by
  have hkeep : Plain (keepPlace x) := by
    unfold keepPlace
    split
    all_goals first | exact plain_emit _ _ | exact plain_pure _ | exact plain_throw _
  exact plain_bind hkeep fun _ => plain_bind (plain_load x) fun _ =>
    plain_bind (plain_constant step) fun _ => plain_bind (plain_emit _ _) fun _ => plain_store x

theorem plain_newArray (length : Option Int32) (element : TypeId) :
    Plain (newArray length element : Emission ε Unit) := by
  refine plain_bind ?_ fun _ => plain_emit _ _
  rcases length with _ | v
  · exact plain_pure _
  · exact plain_constant v

theorem total_newArray (length : Option Int32) (element : TypeId) :
    Total (newArray length element : Emission ε Unit) := by
  refine total_bind ?_ fun _ => total_emit _ _
  rcases length with _ | v
  · exact total_pure _
  · exact total_emit _ _

variable {a : Assembly} {L : Set Label}

/-- The emission ends as `Q` says, or stops at a jump that is too far. -/
def Safe (e : Emission Fault α) (a : Assembly) (Q : α → Assembly → Prop) : Prop :=
  match e.outcome a with
  | (.ok x, a') => Q x a'
  | (.error f, a') => a'.Overruns f

/-- The code has grown, and the labels of `L` are not defined yet. -/
structure Continues (L : Set Label) (a a' : Assembly) : Prop where
  patchable : a'.Patchable
  undefined : a'.undefined = L
  labels : a.labels.size ≤ a'.labels.size
  here : a.here ≤ a'.here

theorem safe_bind {e : Emission Fault α} {f : α → Emission Fault β} {Q : β → Assembly → Prop}
    (h : Safe e a fun x a' => Safe (f x) a' Q) : Safe (e >>= f) a Q := by
  unfold Safe at h ⊢
  rw [outcome_bind]
  rcases hr : outcome e a with ⟨p | x, a₁⟩
  · simpa [hr] using h
  · simpa [hr] using h

theorem safe_mono {e : Emission Fault α} {Q Q' : α → Assembly → Prop} (h : Safe e a Q)
    (hQ : ∀ x a', Q x a' → Q' x a') : Safe e a Q' := by
  unfold Safe at h ⊢
  rcases hr : outcome e a with ⟨p | x, a₁⟩
  · simpa [hr] using h
  · exact hQ x a₁ (by simpa [hr] using h)

theorem safe_of_succeeds {e : Emission Fault α} {Q : α → Assembly → Prop} {x : α} {a' : Assembly}
    (h : Succeeds e a x a') (hQ : Q x a') : Safe e a Q := by
  unfold Safe
  rw [h]
  exact hQ

theorem safe_emit {op : Opcode} {operands : List Int} {Q : Unit → Assembly → Prop}
    (hQ : Q () (a.emit op operands)) : Safe (emit op operands) a Q :=
  safe_of_succeeds (succeeds_emit.2 rfl) hQ

theorem safe_modify {f : Assembly → Assembly} {Q : Unit → Assembly → Prop} (hQ : Q () (f a)) :
    Safe (modify f) a Q :=
  safe_of_succeeds (x := ()) (succeeds_modify.2 rfl) hQ

theorem safe_here {Q : Nat → Assembly → Prop} (hQ : Q a.here a) : Safe here a Q :=
  safe_of_succeeds (succeeds_here.2 ⟨rfl, rfl⟩) hQ

theorem safe_labelState {l : Label} {st : LabelState} {Q : LabelState → Assembly → Prop}
    (hl : a.label? l = some st) (hQ : Q st a) : Safe (labelState l) a Q :=
  safe_of_succeeds (succeeds_labelState.2 ⟨hl, rfl⟩) hQ

theorem safe_of_plain {e : Emission Fault α} (hp : Plain e) (ht : Total e) (h : a.Patchable) :
    Safe e a fun _ a' => Continues a.undefined a a' := by
  obtain ⟨x, hx⟩ := ht a
  obtain ⟨hlabels, hhere⟩ := hp a
  obtain ⟨hpatch, hundefined⟩ := h.grow hlabels hhere
  refine safe_of_succeeds (Prod.ext hx rfl) ⟨hpatch, hundefined, ?_, hhere⟩
  rw [hlabels]

theorem safe_newLabel (h : a.Patchable) :
    Safe newLabel a fun l a' =>
      Continues (insert l a.undefined) a a' ∧ l ∉ a.undefined := by
  have hnew : Succeeds (newLabel : Emission Fault Label) a ⟨a.labels.size⟩ a.newLabel.2 := rfl
  refine safe_of_succeeds hnew ⟨⟨⟨?_, ?_⟩, ?_, ?_, ?_⟩, ?_⟩
  · intro l ps hps p hp
    rw [Assembly.label?_newLabel] at hps
    split at hps
    · obtain rfl := LabelState.pending.inj (Option.some.inj hps)
      simp at hp
    · exact h.positions l ps hps p hp
  · intro l A hA
    rw [Assembly.label?_newLabel] at hA
    split at hA
    · simp at hA
    · exact h.addresses l A hA
  · ext l
    simp only [Assembly.undefined, Set.mem_insert_iff, Set.mem_ofPred_eq, Assembly.label?_newLabel]
    by_cases hl : l.index = a.labels.size
    · simp [show l = ⟨a.labels.size⟩ by cases l; simp_all]
    · have hne : l ≠ ⟨a.labels.size⟩ := by
        rintro rfl
        exact hl rfl
      simp [hl, hne]
  · simp [Assembly.newLabel]
  · exact Nat.le_refl _
  · rintro ⟨ps, hps⟩
    exact Nat.lt_irrefl _ (a.index_lt_of_label? hps)

/-- Only where much code lies between them is a target too far from an operand. -/
theorem overruns_of_far {target position size : Nat} (htarget : target ≤ size)
    (hposition : position ≤ size) (hfar : ¬InReach ((target : Int) - (position + 2))) :
    32767 ≤ size := by
  unfold InReach at hfar
  omega

theorem safe_distance {target position : Nat} {Q : Int → Assembly → Prop}
    (htarget : target ≤ a.here) (hposition : position ≤ a.here)
    (hQ : Q ((target : Int) - (position + 2)) a) : Safe (distance target position) a Q := by
  by_cases hreach : InReach ((target : Int) - (position + 2))
  · exact safe_of_succeeds (succeeds_distance.2 ⟨rfl, hreach, rfl⟩) hQ
  · have houtcome : outcome (distance target position) a =
        (.error (.jumpOutOfRange position ((target : Int) - (position + 2))), a) := by
      have hfar : ¬(-32768 ≤ (target : Int) - (position + 2) ∧
          (target : Int) - (position + 2) ≤ 32767) := hreach
      simp only [distance, if_neg hfar, outcome_throw]
    unfold Safe
    rw [houtcome]
    exact ⟨_, _, rfl, hreach, overruns_of_far htarget hposition hreach⟩

theorem size_append (bytes : List UInt8) : (a.append bytes).here = a.here + bytes.length := by
  simp [Assembly.here, Assembly.append, ← Array.length_toList]

theorem safe_put (bytes : List UInt8) (h : a.Patchable) :
    Safe (put bytes) a fun _ a' => Continues a.undefined a a' := by
  have hhere : a.here ≤ (a.append bytes).here := by simp [size_append]
  obtain ⟨hpatch, hundefined⟩ := h.grow (by rfl) hhere
  exact safe_modify ⟨hpatch, hundefined, Nat.le_refl _, hhere⟩

/-- A label is set to a state that keeps it open. -/
theorem undefined_setLabel {l : Label} {ps qs : List Nat} (hl : a.label? l = some (.pending ps)) :
    (a.setLabel l (.pending qs)).undefined = a.undefined := by
  ext m
  simp only [Assembly.undefined, Set.mem_ofPred_eq, Assembly.label?_setLabel_of_known hl]
  by_cases hm : m = l
  · simp [hm, hl]
  · simp [hm]

theorem safe_reference {l : Label} (h : a.Patchable) (hl : l.index < a.labels.size) :
    Safe (reference l) a fun _ a' => Continues a.undefined a a' := by
  obtain ⟨st, hst⟩ : ∃ st, a.label? l = some st := ⟨_, Array.getElem?_eq_getElem hl⟩
  refine safe_bind (safe_here (safe_bind (safe_labelState hst ?_)))
  rcases st with ps | address
  · -- the operand waits for the label
    let a' := (a.setLabel l (.pending (ps ++ [a.here]))).append (bigEndian 2 0)
    have hhere : a'.here = a.here + 2 := by
      rw [size_append, length_bigEndian]
      rfl
    refine safe_modify (show Continues a.undefined a a' from ⟨⟨?_, ?_⟩, ?_, ?_, by omega⟩)
    · intro m qs hqs p hp
      have hqs : (a.setLabel l (.pending (ps ++ [a.here]))).label? m = some (.pending qs) := hqs
      rw [Assembly.label?_setLabel_of_known hst] at hqs
      split at hqs
      · obtain rfl := LabelState.pending.inj (Option.some.inj hqs)
        rcases List.mem_append.1 hp with hp | hp
        · have := h.positions l ps hst p hp
          omega
        · rw [List.mem_singleton.1 hp]
          omega
      · have := h.positions m qs hqs p hp
        omega
    · intro m A hA
      have hA : (a.setLabel l (.pending (ps ++ [a.here]))).label? m = some (.resolved A) := hA
      rw [Assembly.label?_setLabel_of_known hst] at hA
      split at hA
      · simp at hA
      · have := h.addresses m A hA
        omega
    · exact undefined_setLabel hst
    · simp [a', Assembly.append, Assembly.setLabel]
  · -- the distance is known
    refine safe_bind (safe_distance (h.addresses l address hst) (Nat.le_refl _) ?_)
    exact safe_put _ h

theorem safe_jumpTo {op : Opcode} {l : Label} (h : a.Patchable) (hl : l.index < a.labels.size) :
    Safe (do emit op; reference l) a fun _ a' => Continues a.undefined a a' := by
  obtain ⟨hlabels, hhere⟩ := plain_emit (ε := Fault) op [] a
  obtain ⟨hpatch, hundefined⟩ := h.grow hlabels hhere
  refine safe_bind (safe_emit ?_)
  refine safe_mono (safe_reference hpatch (hlabels ▸ hl)) fun _ a' h => ?_
  exact ⟨h.patchable, h.undefined.trans hundefined, h.labels, Nat.le_trans hhere h.here⟩

theorem safe_call {target : Nat} (h : a.Patchable) (htarget : target ≤ a.here) :
    Safe (call target) a fun _ a' => Continues a.undefined a a' := by
  obtain ⟨hlabels, hhere⟩ := plain_emit (ε := Fault) .call [] a
  obtain ⟨hpatch, hundefined⟩ := h.grow hlabels hhere
  refine safe_bind (safe_emit ?_)
  refine safe_bind (safe_here (safe_bind ?_))
  refine safe_distance (Nat.le_trans htarget hhere) (Nat.le_refl _) ?_
  refine safe_mono (safe_put _ hpatch) fun _ a' h => ?_
  exact ⟨h.patchable, h.undefined.trans hundefined, h.labels, Nat.le_trans hhere h.here⟩

theorem length_overwrite (position : Nat) : ∀ (bytes : List UInt8) (code : Array UInt8),
    (Assembly.overwrite code position bytes).size = code.size
  | bytes, code => by
    induction bytes generalizing code position with
    | nil => rfl
    | cons b bytes ih => simp [Assembly.overwrite, ih]

/-- Patching operands that are in the code. -/
theorem safe_patches {target : Nat} :
    ∀ {ps : List Nat} {a : Assembly}, target = a.here → (∀ p ∈ ps, p + 2 ≤ a.here) →
      Safe (ps.forM fun p => do patch p (bigEndian 2 (← distance target p))) a
        fun _ a' => a'.labels = a.labels ∧ a'.here = a.here
  | [], a, _, _ => safe_of_succeeds (succeeds_pure.2 ⟨rfl, rfl⟩) ⟨rfl, rfl⟩
  | p :: ps, a, htarget, hps => by
    have hp : p + 2 ≤ a.here := hps p (by simp)
    show Safe ((do patch p (bigEndian 2 (← distance target p))) >>= fun _ =>
      ps.forM fun p => do patch p (bigEndian 2 (← distance target p))) a _
    refine safe_bind (safe_bind (safe_distance (by omega) (by omega) ?_))
    let a₁ : Assembly :=
      { a with code := Assembly.overwrite a.code p (bigEndian 2 ((target : Int) - (p + 2))) }
    have hhere : a₁.here = a.here := length_overwrite ..
    have hpatch : Succeeds (patch p (bigEndian 2 ((target : Int) - (p + 2)))) a () a₁ :=
      succeeds_patch.2 ⟨by simpa using hp, rfl⟩
    refine safe_of_succeeds hpatch ?_
    refine safe_mono (safe_patches (a := a₁) (htarget.trans hhere.symm)
      fun q hq => hhere ▸ hps q (by simp [hq])) fun _ a' h => ⟨h.1, h.2.trans hhere⟩

theorem safe_define {l : Label} (h : a.Patchable) (hl : l ∈ a.undefined) :
    Safe (define l) a fun _ a' => Continues (a.undefined \ {l}) a a' := by
  obtain ⟨ps, hps⟩ := hl
  refine safe_bind (safe_here (safe_bind (safe_labelState hps ?_)))
  refine safe_bind (safe_modify (safe_bind ?_))
  have htarget : a.here = (a.setLabel l (.pending [])).here := rfl
  refine safe_mono (safe_patches htarget (h.positions l ps hps)) fun _ a₁ ⟨hlabels, hhere⟩ => ?_
  have hhere : a₁.here = a.here := hhere
  have hlabel : ∀ m, (a₁.setLabel l (.resolved a.here)).label? m =
      if m = l then some (.resolved a.here) else a.label? m := by
    intro m
    have hlabel₁ : a₁.label? = (a.setLabel l (.pending [])).label? := Assembly.label?_congr hlabels
    rw [Assembly.label?_setLabel, hlabel₁, Assembly.label?_setLabel_of_known hps,
      Assembly.label?_setLabel_of_known hps, if_pos rfl]
    split <;> rfl
  refine safe_modify ⟨⟨?_, ?_⟩, ?_, ?_, Nat.le_of_eq hhere.symm⟩
  · intro m qs hqs p hp
    rw [hlabel] at hqs
    split at hqs
    · simp at hqs
    · exact Nat.le_trans (h.positions m qs hqs p hp) (Nat.le_of_eq hhere.symm)
  · intro m A hA
    rw [hlabel] at hA
    split at hA
    · obtain rfl := LabelState.resolved.inj (Option.some.inj hA)
      exact Nat.le_of_eq hhere.symm
    · exact Nat.le_trans (h.addresses m A hA) (Nat.le_of_eq hhere.symm)
  · ext m
    simp only [Assembly.undefined, Set.mem_ofPred_eq, hlabel, Set.mem_sdiff, Set.mem_singleton_iff]
    by_cases hm : m = l <;> simp [hm]
  · simp [Assembly.setLabel, hlabels]

end Emission

end MicroJava
