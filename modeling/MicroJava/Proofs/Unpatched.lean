import Mathlib.Algebra.BigOperators.Group.Finset.Piecewise
import MicroJava.Proofs.Operation

/-!
# Jumps that are left unpatched

Operations on code are performed one after the other, and some of them fail (`Operation.run`). A jump
to a label that is not defined yet writes a placeholder, and what counts for the finished image is the
list of placeholders that nobody has tried to define the label of since (`Operation.waiting`, `Waits`).
As long as no label is defined too far from a jump, those are the placeholders that are not patched
(`Operation.finish_run`). Where one is, the jumps that wait for it are forgotten, and the image is
finished without them (`Operation.finish_run_forgets`).
-/

namespace MicroJava

open Emission

/-- The label is not defined yet. -/
def Assembly.isPending (a : Assembly) (l : Label) : Bool :=
  match a.label? l with
  | some (.pending _) => true
  | _ => false

/-- The operand of a jump holds the distance to its label, which is defined. -/
def Assembly.isPatched (a : Assembly) (x : Label × Nat) : Bool :=
  match a.address? x.1 with
  | some A => (a.code.toList.drop x.2).take 2 = bigEndian 2 ((A : Int) - (x.2 + 2))
  | none => false

theorem Assembly.isPending_iff {a : Assembly} {l : Label} :
    a.isPending l ↔ ∃ ps, a.label? l = some (.pending ps) := by
  rw [Assembly.isPending]
  rcases a.label? l with _ | ps | A <;> simp

namespace Operation

/-- The code behind operations, each of which is performed whether the ones before have failed or
not. -/
def run (os : List Operation) : Assembly := os.foldl (fun a o => o.after a) {}

/-- The placeholder that an operation writes: its label, which is not defined yet, and its position. -/
def placeholder? (a : Assembly) (o : Operation) : Option (Label × Nat) :=
  (o.operand? a.here).filter fun x => a.isPending x.1

/-- The placeholders that operations write. -/
def placeholdersFrom : Assembly → List Operation → List (Label × Nat)
  | _, [] => []
  | a, o :: os => (o.placeholder? a).toList ++ placeholdersFrom (o.after a) os

/-- The placeholders whose labels are not defined behind them, with success or without. -/
def waitingFrom : Assembly → List Operation → List (Label × Nat)
  | _, [] => []
  | a, o :: os =>
    (o.placeholder? a).toList.filter (fun x => define x.1 ∉ os) ++ waitingFrom (o.after a) os

def placeholders (os : List Operation) : List (Label × Nat) := placeholdersFrom {} os

def waiting (os : List Operation) : List (Label × Nat) := waitingFrom {} os

/-! ### One operation more -/

theorem run_snoc (os : List Operation) (o : Operation) : run (os ++ [o]) = o.after (run os) := by
  simp [run]

theorem placeholdersFrom_snoc (a : Assembly) (os : List Operation) (o : Operation) :
    placeholdersFrom a (os ++ [o]) =
      placeholdersFrom a os ++ (o.placeholder? (os.foldl (fun a o => o.after a) a)).toList := by
  induction os generalizing a with
  | nil => simp [placeholdersFrom]
  | cons o' os ih => simp [placeholdersFrom, ih]

theorem waitingFrom_snoc (a : Assembly) (os : List Operation) (o : Operation) :
    waitingFrom a (os ++ [o]) = (waitingFrom a os).filter (fun x => o ≠ define x.1) ++
      (o.placeholder? (os.foldl (fun a o => o.after a) a)).toList := by
  induction os generalizing a with
  | nil => simp [waitingFrom]
  | cons o' os ih =>
    simp [waitingFrom, ih, List.filter_filter, not_or, and_comm, eq_comm (a := o)]

theorem placeholders_snoc (os : List Operation) (o : Operation) :
    placeholders (os ++ [o]) = placeholders os ++ (o.placeholder? (run os)).toList :=
  placeholdersFrom_snoc {} os o

theorem waiting_snoc (os : List Operation) (o : Operation) :
    waiting (os ++ [o]) =
      (waiting os).filter (fun x => o ≠ define x.1) ++ (o.placeholder? (run os)).toList :=
  waitingFrom_snoc {} os o

end Operation

/-! ### The jumps that an assembly waits to patch -/

/-- The placeholders that the labels of an assembly have recorded. -/
structure Waits (a : Assembly) (ws : List (Label × Nat)) : Prop where
  pending : ∀ l ps, a.label? l = some (.pending ps) → ps = (ws.filter (·.1 = l)).map (·.2)
  undefined : ∀ x ∈ ws, ∃ ps, a.label? x.1 = some (.pending ps)
  position : ∀ x ∈ ws, x.2 + 2 ≤ a.here

namespace Waits

open Operation

variable {a a' : Assembly} {ws : List (Label × Nat)}

theorem nil : Waits {} [] where
  pending := by simp [Assembly.label?]
  undefined := by simp
  position := by simp

/-- The list has one entry for each position that a label has recorded. -/
theorem unpatched (h : Waits a ws) : a.unpatched = ws.length := by
  have hindex : ∀ x ∈ ws, x.1.index < a.labels.size := fun x hx => by
    obtain ⟨ps, hps⟩ := h.undefined x hx
    exact a.index_lt_of_label? hps
  have hlabels : a.labels.toList.map LabelState.waiting =
      (List.range a.labels.size).map fun i => ws.countP (·.1.index = i) := by
    refine List.ext_getElem (by simp) fun i hi _ => ?_
    have hi : i < a.labels.size := by simpa using hi
    have hst : a.label? ⟨i⟩ = some a.labels[i] := Array.getElem?_eq_getElem hi
    have hlabel : ∀ x : Label × Nat, x.1 = ⟨i⟩ ↔ x.1.index = i := fun x => by
      rcases x with ⟨⟨j⟩, p⟩
      simp
    simp only [List.getElem_map, Array.getElem_toList, List.getElem_range]
    rcases hpending : a.labels[i] with ps | A
    · rw [LabelState.waiting, h.pending ⟨i⟩ ps (hpending ▸ hst), List.length_map,
        ← List.countP_eq_length_filter]
      simp only [hlabel]
    · rw [LabelState.waiting, eq_comm, List.countP_eq_zero]
      intro x hx hx'
      obtain ⟨ps, hps⟩ := h.undefined x hx
      rw [(hlabel x).2 (by simpa using hx'), hst, hpending] at hps
      cases hps
  rw [Assembly.unpatched_eq_sum, hlabels, ← List.sum_toFinset _ List.nodup_range]
  -- every entry is counted at the index of its label
  clear hlabels h
  induction ws with
  | nil => simp
  | cons x ws ih =>
    simp only [List.countP_cons, decide_eq_true_eq, Finset.sum_add_distrib, Finset.sum_ite_eq,
      List.mem_toFinset, List.mem_range, hindex x (by simp), if_true, List.length_cons,
      ih fun y hy => hindex y (by simp [hy])]

/-- Code that grows without a change to the labels. -/
theorem grow (h : Waits a ws) (hlabels : a'.labels = a.labels) (hhere : a.here ≤ a'.here) :
    Waits a' ws where
  pending := fun l ps hps => h.pending l ps (by rwa [Assembly.label?, hlabels] at hps)
  undefined := fun x hx => by
    rw [Assembly.label?, hlabels]
    exact h.undefined x hx
  position := fun x hx => Nat.le_trans (h.position x hx) hhere

theorem newLabel (h : Waits a ws) : Waits a.newLabel.2 ws where
  pending := by
    intro l ps hps
    rw [Assembly.label?_newLabel] at hps
    split at hps
    · next hl =>
      obtain rfl := LabelState.pending.inj (Option.some.inj hps)
      -- no jump waits for a label that did not exist
      refine (List.map_eq_nil_iff.2 (List.filter_eq_nil_iff.2 fun x hx hx' => ?_)).symm
      obtain ⟨qs, hqs⟩ := h.undefined x hx
      have := a.index_lt_of_label? hqs
      rw [of_decide_eq_true hx', hl] at this
      exact Nat.lt_irrefl _ this
    · exact h.pending l ps hps
  undefined := by
    intro x hx
    obtain ⟨ps, hps⟩ := h.undefined x hx
    have := a.index_lt_of_label? hps
    rw [Assembly.label?_newLabel, if_neg (by omega)]
    exact ⟨ps, hps⟩
  position := h.position

/-- A placeholder more. -/
theorem snoc (h : Waits a ws) {l : Label} {ps : List Nat} (hl : a.label? l = some (.pending ps)) :
    Waits ((a.setLabel l (.pending (ps ++ [a.here]))).append (bigEndian 2 0))
      (ws ++ [(l, a.here)]) := by
  have hlabel : ∀ m, ((a.setLabel l (.pending (ps ++ [a.here]))).append (bigEndian 2 0)).label? m =
      if m = l then some (.pending (ps ++ [a.here])) else a.label? m :=
    Assembly.label?_setLabel_of_known hl _
  have hhere : ((a.setLabel l (.pending (ps ++ [a.here]))).append (bigEndian 2 0)).here =
      a.here + 2 := by
    rw [size_append, length_bigEndian]
    rfl
  refine ⟨fun m qs hqs => ?_, fun x hx => ?_, fun x hx => ?_⟩
  · rw [hlabel] at hqs
    by_cases hm : m = l
    · subst hm
      rw [if_pos rfl] at hqs
      obtain rfl := LabelState.pending.inj (Option.some.inj hqs)
      simp [h.pending m ps hl]
    · rw [if_neg hm] at hqs
      simpa [Ne.symm hm] using h.pending m qs hqs
  · rw [hlabel]
    split
    · exact ⟨_, rfl⟩
    · next hm =>
      rcases List.mem_append.1 hx with hx | hx
      · exact h.undefined x hx
      · exact absurd (by rw [List.mem_singleton.1 hx]) hm
  · rw [hhere]
    rcases List.mem_append.1 hx with hx | hx
    · have := h.position x hx
      omega
    · rw [List.mem_singleton.1 hx]

theorem reference (h : Waits a ws) (l : Label) :
    Waits ((Emission.reference l).outcome a).2
      (ws ++ if a.isPending l then [(l, a.here)] else []) := by
  rcases hl : a.label? l with _ | ps | A
  · simpa [outcome_reference_unknown hl, Assembly.isPending, hl] using h
  · have houtcome : (Emission.reference l).outcome a = (.ok (), _) :=
      succeeds_reference.2 (.inr ⟨ps, hl, rfl⟩)
    simpa [houtcome, Assembly.isPending, hl] using h.snoc hl
  · by_cases hreach : InReach ((A : Int) - (a.here + 2))
    · have houtcome : (Emission.reference l).outcome a = (.ok (), _) :=
        succeeds_reference.2 (.inl ⟨A, hl, hreach, rfl⟩)
      simpa [houtcome, Assembly.isPending, hl] using h.grow (by rfl) (by simp [size_append])
    · simpa [outcome_reference_far hl hreach, Assembly.isPending, hl] using h

/-- Whether it succeeds or not, nothing waits for a label behind the attempt to define it. -/
theorem define (h : Waits a ws) (l : Label) :
    Waits ((Emission.define l).outcome a).2 (ws.filter fun x => x.1 ≠ l) := by
  have hskip : (∀ ps, a.label? l ≠ some (.pending ps)) → ws.filter (fun x => x.1 ≠ l) = ws := by
    refine fun hnone => List.filter_eq_self.2 fun x hx => ?_
    obtain ⟨ps, hps⟩ := h.undefined x hx
    refine decide_eq_true ?_
    rintro rfl
    exact hnone ps hps
  rcases hl : a.label? l with _ | ps | A
  · rw [hskip (by simp [hl]), outcome_define_unknown hl]
    exact h
  · have hps : ∀ p ∈ ps, p + 2 ≤ a.here := by
      intro p hp
      rw [h.pending l ps hl] at hp
      obtain ⟨x, hx, rfl⟩ := List.mem_map.1 hp
      exact h.position x (List.mem_of_mem_filter hx)
    obtain ⟨code, hsize, houtcome⟩ := outcome_define hl hps
    obtain ⟨st, hst, hout⟩ : ∃ st, st.waiting = 0 ∧
        ((Emission.define l).outcome a).2 = { a.setLabel l st with code } := by
      split at houtcome
      · exact ⟨.resolved a.here, rfl, by rw [houtcome]⟩
      · obtain ⟨_, _, houtcome⟩ := houtcome
        exact ⟨.pending [], rfl, by rw [houtcome]⟩
    rw [hout]
    have hlabel : ∀ m, ({ a.setLabel l st with code } : Assembly).label? m =
        if m = l then some st else a.label? m := Assembly.label?_setLabel_of_known hl st
    refine ⟨fun m qs hqs => ?_, fun x hx => ?_, fun x hx => ?_⟩
    · rw [hlabel] at hqs
      by_cases hm : m = l
      · subst hm
        rw [if_pos rfl] at hqs
        obtain rfl := Option.some.inj hqs
        rw [List.length_eq_zero_iff.1 hst, List.filter_filter]
        simp
      · rw [if_neg hm] at hqs
        rw [h.pending m qs hqs, List.filter_filter]
        congr 2
        funext x
        by_cases hx : x.1 = m <;> simp [hx, hm]
    · obtain ⟨hx, hne⟩ := List.mem_filter.1 hx
      rw [hlabel, if_neg (by simpa using hne)]
      exact h.undefined x hx
    · show x.2 + 2 ≤ code.size
      rw [hsize]
      exact h.position x (List.mem_of_mem_filter hx)
  · rw [hskip (by simp [hl]), outcome_define_twice hl]
    exact h

/-- What an operation does to the list, whether it fails or not. -/
theorem after (h : Waits a ws) (o : Operation) :
    Waits (o.after a) (ws.filter (fun x => o ≠ .define x.1) ++ (o.placeholder? a).toList) := by
  rcases hjump : o.jump? with _ | ⟨op, l⟩
  · rw [placeholder?, operand?, hjump]
    simp only [Option.map_none, Option.filter_none, Option.toList_none, List.append_nil]
    cases o with
    | write w =>
      obtain ⟨hcode, hlabels⟩ := w.perform_eq a
      replace hlabels : ((Operation.write w).after a).labels = a.labels := hlabels
      have hhere : a.here ≤ ((Operation.write w).after a).here := by
        simp only [Assembly.here, ← Array.length_toList, Operation.after, perform, outcome_mapError,
          hcode, List.length_append]
        omega
      simpa using h.grow hlabels hhere
    | newLabel =>
      have hafter : Operation.newLabel.after a = a.newLabel.2 := rfl
      simpa [hafter] using h.newLabel
    | call target =>
      have hcall : ((Operation.call target).after a).labels = a.labels ∧
          a.here ≤ ((Operation.call target).after a).here := by
        rw [Operation.after, perform, outcome_mapError]
        obtain ⟨hlabels, hhere⟩ := plain_emit (ε := Fault) .call [] a
        by_cases hreach : InReach ((target : Int) - (a.here + 3))
        · have houtcome : (Emission.call target).outcome a = (.ok (), _) :=
            succeeds_call.2 ⟨hreach, rfl⟩
          simp only [houtcome, size_append]
          exact ⟨hlabels, Nat.le_add_right_of_le hhere⟩
        · rw [outcome_call_far hreach]
          exact ⟨hlabels, hhere⟩
      simpa using h.grow hcall.1 hcall.2
    | define l =>
      have hfilter : (fun x : Label × Nat => decide (Operation.define l ≠ .define x.1)) =
          fun x => decide (x.1 ≠ l) := by
        funext x
        simp [eq_comm]
      rw [hfilter]
      exact h.define l
    | _ => simp [jump?] at hjump
  · obtain ⟨a₁, hcode, hlabels, houtcome⟩ := outcome_jump hjump a
    have hhere : a₁.here = a.here + (opcodeBytes op).length := by
      simp [Assembly.here, ← Array.length_toList, hcode]
    have hpending : a.isPending l = a₁.isPending l := by
      simp only [Assembly.isPending, Assembly.label?, hlabels]
    have hplaceholder : (o.placeholder? a).toList =
        if a₁.isPending l then [(l, a₁.here)] else [] := by
      rw [placeholder?, operand?, hjump, hhere, ← hpending]
      by_cases hl : a.isPending l <;> simp [Option.filter, hl]
    have hkeep : ws.filter (fun x => o ≠ .define x.1) = ws := by
      refine List.filter_eq_self.2 fun x _ => decide_eq_true ?_
      rintro rfl
      simp [jump?] at hjump
    rw [hkeep, hplaceholder, Operation.after, houtcome]
    exact (h.grow hlabels (by omega)).reference l

/-- The run: what waits at its end is what nobody has tried to define the label of. -/
theorem run (os : List Operation) : Waits (Operation.run os) (waiting os) := by
  induction os using List.reverseRecOn with
  | nil => exact nil
  | append_singleton os o ih =>
    rw [run_snoc, waiting_snoc]
    exact ih.after o

end Waits

/-! ### The placeholders that are patched -/

/-- The bytes of an operand. -/
theorem take_drop_renderFrom {fill : Nat → Label → Int} {fs : List Fragment} {l : Label} {p : Nat}
    (hp : p ∈ operandsFrom l 0 fs) :
    ((renderFrom fill 0 fs).drop p).take 2 = bigEndian 2 (fill p l) := by
  obtain ⟨pre, post, rfl, rfl⟩ := mem_operandsFrom.1 hp
  rw [Nat.zero_add, renderFrom_append, Nat.zero_add,
    List.drop_left' (length_renderFrom 0 pre), renderFrom, Fragment.encodeAt,
    List.take_left' (length_bigEndian _ _)]

namespace Drafts

open Operation

variable {a : Assembly} {fs : List Fragment} {o : Operation}

theorem isPatched_eq (h : Drafts a fs) {x : Label × Nat} (hx : x.2 ∈ operandsFrom x.1 0 fs) :
    a.isPatched x = (a.address? x.1).isSome := by
  rw [Assembly.isPatched, h.code, take_drop_renderFrom hx, Assembly.fill]
  rcases a.address? x.1 with _ | A <;> simp

/-- An operation that fails, other than a label that is too far from a jump to it, adds bytes to the
draft and does not define a label. -/
theorem fail (h : Drafts a fs) (hfail : ∀ u a', ¬Succeeds o.perform a u a')
    (hdefine : ∀ l, o = .define l → ¬o.Overreaches a) :
    ∃ bs, Drafts (o.after a) (fs ++ [.bytes bs]) ∧ (o.after a).address? = a.address? ∧
      ∀ l, o = .define l → l.index < a.labels.size → a.address? l ≠ none := by
  have hkeep : Drafts a (fs ++ [.bytes []]) := h.append (List.append_nil _).symm rfl
  rcases hjump : o.jump? with _ | ⟨op, l⟩
  · cases o with
    | write w =>
      obtain ⟨hcode, hlabels⟩ := w.perform_eq a
      exact ⟨w.bytes, h.append hcode hlabels, Assembly.address?_congr hlabels, by simp⟩
    | newLabel => exact absurd rfl (hfail () a.newLabel.2)
    | call target =>
      have hfar : ¬InReach ((target : Int) - (a.here + 3)) := fun hreach =>
        hfail () _ (succeeds_mapError.2 (succeeds_call.2 ⟨hreach, rfl⟩))
      have hafter : (Operation.call target).after a = a.emit .call [] := by
        rw [Operation.after, Operation.perform, outcome_mapError, outcome_call_far hfar]
      rw [hafter]
      exact ⟨Opcode.encode .call [], h.append Array.toList_appendList rfl, rfl, by simp⟩
    | define l =>
      refine ⟨[], ?_⟩
      rw [Operation.after, Operation.perform, outcome_mapError]
      rcases hl : a.label? l with _ | ps | A
      · rw [outcome_define_unknown hl]
        refine ⟨hkeep, rfl, ?_⟩
        rintro _ ⟨⟩ hknown
        rw [Assembly.label?, Array.getElem?_eq_none_iff] at hl
        omega
      · obtain ⟨code, -, houtcome⟩ := outcome_define hl (h.position_le l ps hl)
        split at houtcome
        · exact absurd (succeeds_mapError.2 houtcome) (hfail () _)
        · obtain ⟨position, d, houtcome⟩ := houtcome
          refine absurd ⟨position, d, ?_⟩ (hdefine l rfl)
          rw [Operation.perform, outcome_mapError, houtcome]
          rfl
      · rw [outcome_define_twice hl]
        refine ⟨hkeep, rfl, ?_⟩
        rintro _ ⟨⟩ -
        simp [Assembly.address?, hl]
    | _ => simp [jump?] at hjump
  · obtain ⟨a₁, hcode, hlabels, houtcome⟩ := outcome_jump hjump a
    have hafter : o.after a = a₁ := by
      have hsucceeds : ∀ u a', ¬Succeeds (Emission.reference l) a₁ u a' := fun u a' hs =>
        hfail u a' (houtcome.trans (succeeds_mapError.2 hs))
      rw [Operation.after, houtcome, outcome_mapError]
      rcases hl : a₁.label? l with _ | ps | A
      · rw [outcome_reference_unknown hl]
      · exact absurd (succeeds_reference.2 (.inr ⟨ps, hl, rfl⟩)) (hsucceeds () _)
      · have hfar : ¬InReach ((A : Int) - (a₁.here + 2)) := fun hreach =>
          hsucceeds () _ (succeeds_reference.2 (.inl ⟨A, hl, hreach, rfl⟩))
        rw [outcome_reference_far hl hfar]
    rw [hafter]
    refine ⟨_, h.append hcode hlabels, Assembly.address?_congr hlabels, ?_⟩
    rintro _ rfl
    simp [jump?] at hjump

/-- What is left of a draft by an operation, whether it fails or not, unless it defines a label that is
too far from a jump to it. -/
theorem after (h : Drafts a fs) (hdefine : ∀ l, o = .define l → ¬o.Overreaches a) :
    ∃ gs, Drafts (o.after a) (fs ++ gs) ∧
      (∀ x, o.placeholder? a = some x → x.2 ∈ operandsFrom x.1 0 (fs ++ gs)) ∧
      ∀ l, l.index < a.labels.size →
        ((o.after a).address? l = none ↔ a.address? l = none ∧ o ≠ .define l) := by
  by_cases hs : ∃ u a', Succeeds o.perform a u a'
  · obtain ⟨u, a', hs⟩ := hs
    obtain rfl : o.after a = a' := by rw [Operation.after, hs]
    obtain ⟨hdrafts, hperforms⟩ := h.perform hs
    refine ⟨_, hdrafts, fun x hx => ?_, fun l _ => ?_⟩
    · obtain ⟨hoperand, -⟩ := Option.filter_eq_some_iff.1 hx
      obtain ⟨⟨op, l⟩, hjump, rfl⟩ := Option.map_eq_some_iff.1 hoperand
      rw [fragments_jump hjump, operandsFrom_append, List.mem_append, h.here]
      exact .inr (by simp [operandsFrom])
    · rw [hperforms.address]
      by_cases hl : o = .define l <;> simp [hl]
  · simp only [not_exists] at hs
    obtain ⟨bs, hdrafts, haddress, hdefined⟩ := h.fail hs hdefine
    refine ⟨_, hdrafts, fun x hx => ?_, fun l hl => ?_⟩
    · -- a jump to a label that is not defined does not fail
      obtain ⟨hoperand, hpending⟩ := Option.filter_eq_some_iff.1 hx
      obtain ⟨⟨op, l⟩, hjump, rfl⟩ := Option.map_eq_some_iff.1 hoperand
      obtain ⟨a₁, -, hlabels, houtcome⟩ := outcome_jump hjump a
      obtain ⟨ps, hps⟩ := Assembly.isPending_iff.1 hpending
      have hps : a₁.label? l = some (.pending ps) := by rwa [Assembly.label?, hlabels]
      exact absurd (houtcome.trans (succeeds_mapError.2 (succeeds_reference.2 (.inr ⟨ps, hps, rfl⟩))))
        (hs () _)
    · rw [haddress]
      constructor
      · exact fun hnone => ⟨hnone, fun ho => hdefined l ho hl hnone⟩
      · exact And.left

end Drafts

namespace Operation

/-- No label is defined too far from a jump to it. -/
def Tame (os : List Operation) : Prop :=
  ∀ pre l post, os = pre ++ define l :: post → ¬(define l).Overreaches (run pre)

theorem Tame.of_snoc {os : List Operation} {o : Operation} (h : Tame (os ++ [o])) :
    Tame os ∧ ∀ l, o = define l → ¬o.Overreaches (run os) := by
  refine ⟨fun pre l post hos => h pre l (post ++ [o]) (by simp [hos]), ?_⟩
  rintro l rfl
  exact h os l [] rfl

/-- The code of a run is a draft that has the placeholders as operands, and those wait whose labels
have no address. -/
theorem Tame.drafts {os : List Operation} (h : Tame os) :
    ∃ fs, Drafts (run os) fs ∧ (∀ x ∈ placeholders os, x.2 ∈ operandsFrom x.1 0 fs) ∧
      waiting os = (placeholders os).filter fun x => ((run os).address? x.1).isNone := by
  induction os using List.reverseRecOn with
  | nil => exact ⟨[], Drafts.nil, by simp [placeholders, placeholdersFrom], rfl⟩
  | append_singleton os o ih =>
    obtain ⟨htame, hdefine⟩ := h.of_snoc
    obtain ⟨fs, hdrafts, hoperands, hwaiting⟩ := ih htame
    obtain ⟨gs, hdrafts', hplaceholder, haddress⟩ := hdrafts.after hdefine
    have hknown : ∀ x ∈ placeholders os, x.1.index < (run os).labels.size := fun x hx => by
      obtain ⟨pre, post, hsplit, -⟩ := mem_operandsFrom.1 (hoperands x hx)
      exact hdrafts.known x.1 (by simp [hsplit])
    rw [run_snoc, placeholders_snoc, waiting_snoc]
    refine ⟨fs ++ gs, hdrafts', fun x hx => ?_, ?_⟩
    · rcases List.mem_append.1 hx with hx | hx
      · rw [operandsFrom_append, List.mem_append]
        exact .inl (hoperands x hx)
      · exact hplaceholder x (by simpa using hx)
    · rw [List.filter_append, hwaiting, List.filter_filter]
      congr 1
      · refine List.filter_congr fun x hx => ?_
        rw [Bool.eq_iff_iff]
        simp [haddress x.1 (hknown x hx), and_comm]
      · refine (List.filter_eq_self.2 fun x hx => ?_).symm
        obtain ⟨hoperand, hpending⟩ := Option.filter_eq_some_iff.1 (Option.mem_toList.1 hx)
        obtain ⟨⟨op, l⟩, hjump, rfl⟩ := Option.map_eq_some_iff.1 hoperand
        obtain ⟨ps, hps⟩ := Assembly.isPending_iff.1 hpending
        rw [Option.isNone_iff_eq_none, haddress l ((run os).index_lt_of_label? hps)]
        refine ⟨by simp [Assembly.address?, hps], ?_⟩
        rintro rfl
        simp [jump?] at hjump

/-- As long as no label is defined too far from a jump to it, a placeholder waits until it is
patched. -/
theorem Tame.waiting_eq {os : List Operation} (h : Tame os) :
    waiting os = (placeholders os).filter fun x => !(run os).isPatched x := by
  obtain ⟨fs, hdrafts, hoperands, hwaiting⟩ := h.drafts
  rw [hwaiting]
  refine List.filter_congr fun x hx => ?_
  rw [hdrafts.isPatched_eq (hoperands x hx)]
  cases (run os).address? x.1 <;> rfl

end Operation

/-- The image is finished unless jumps keep it from being finished. -/
def Assembly.Owes (a : Assembly) (ws : List (Label × Nat)) : Prop :=
  a.finish = if ws = [] then .ok { code := a.code, dataSize := a.dataSize, entry := a.entry }
    else .error (.unpatchedJumps ws.length)

theorem Waits.owes {a : Assembly} {ws : List (Label × Nat)} (h : Waits a ws) : a.Owes ws := by
  rw [Assembly.Owes, Assembly.finish, h.unpatched]
  simp only [List.length_eq_zero_iff]

namespace Operation

/-- An image is finished unless a placeholder is left whose label nobody has tried to define since. As
long as no label is defined too far from a jump to it, those are the placeholders that do not hold the
distance to their labels. -/
theorem finish_run (os : List Operation) :
    (run os).Owes (waiting os) ∧
      (Tame os → (run os).Owes ((placeholders os).filter fun x => !(run os).isPatched x)) := by
  refine ⟨(Waits.run os).owes, fun h => ?_⟩
  rw [← h.waiting_eq]
  exact (Waits.run os).owes

/-- Two jumps forward, one of which is left unpatched, and a label that is defined twice. -/
def halfPatched : List Operation :=
  [newLabel, newLabel, jump ⟨0⟩, jump ⟨1⟩, define ⟨0⟩, define ⟨0⟩]

theorem finish_run_halfPatched :
    (halfPatched.getLast (by decide)).perform.outcome (run halfPatched.dropLast) =
      (.error (.fault (.labelDefinedTwice 6 6)), run halfPatched) ∧
    (run halfPatched).finish = .error (.unpatchedJumps 1) := by
  have htame : Tame halfPatched := by
    intro pre l post hsplit hfar
    obtain ⟨position, d, hfar⟩ := hfar
    rcases pre with _ | ⟨o₁, _ | ⟨o₂, _ | ⟨o₃, _ | ⟨o₄, _ | ⟨o₅, _ | ⟨o₆, pre⟩⟩⟩⟩⟩⟩ <;>
      simp [halfPatched] at hsplit
    all_goals
      obtain ⟨rfl, rfl, rfl, rfl, rfl, rfl, rfl⟩ := hsplit
      cases hfar
  exact ⟨rfl, (finish_run halfPatched).2 htame⟩

/-- A jump forward over `n` instructions of one byte. -/
def leap (n : Nat) : List Operation :=
  [newLabel, jump ⟨0⟩] ++ List.replicate n (write (.emit .pop))

theorem run_leap (n : Nat) :
    (run (leap n)).labels = #[.pending [1]] ∧ (run (leap n)).here = n + 3 := by
  induction n with
  | zero => exact ⟨rfl, rfl⟩
  | succ n ih =>
    obtain ⟨hcode, hlabels⟩ := (Writing.emit .pop).perform_eq (run (leap n))
    have hrun : run (leap (n + 1)) = (write (.emit .pop)).after (run (leap n)) := by
      rw [leap, List.replicate_succ', ← List.append_assoc, run_snoc, leap]
    have hhere : (run (leap (n + 1))).here = (run (leap n)).here + 1 := by
      rw [hrun, Assembly.here, ← Array.length_toList, Operation.after, perform, outcome_mapError, hcode,
        Writing.bytes_emit, List.length_append, Array.length_toList]
      rfl
    exact ⟨by rw [hrun]; exact hlabels.trans ih.1, by omega⟩

/-- Defining the label of a jump that is too far away fails, and the image is finished nevertheless,
with the jump left unpatched. -/
theorem forgets_leap {n : Nat} (hn : 32767 < n) :
    (define ⟨0⟩).Overreaches (run (leap n)) ∧
      (⟨0⟩, 1) ∈ placeholders (leap n ++ [define ⟨0⟩]) ∧
      (run (leap n ++ [define ⟨0⟩])).isPatched (⟨0⟩, 1) = false ∧
      ∃ image, (run (leap n ++ [define ⟨0⟩])).finish = .ok image := by
  obtain ⟨hlabels, hhere⟩ := run_leap n
  have hl : (run (leap n)).label? ⟨0⟩ = some (.pending [1]) := by
    rw [Assembly.label?, hlabels]
    rfl
  obtain ⟨code, -, houtcome⟩ := outcome_define hl (by simp [hhere])
  rw [if_neg (by simp only [hhere, List.mem_singleton, forall_eq, InReach]; omega)] at houtcome
  obtain ⟨position, d, houtcome⟩ := houtcome
  have hrun : run (leap n ++ [define ⟨0⟩]) =
      { (run (leap n)).setLabel ⟨0⟩ (.pending []) with code } := by
    rw [run_snoc, Operation.after, perform, outcome_mapError, houtcome]
  have hforgotten : (run (leap n ++ [define ⟨0⟩])).labels = #[.pending []] := by
    rw [hrun]
    simp [Assembly.setLabel, hlabels]
  refine ⟨⟨position, d, by rw [perform, outcome_mapError, houtcome]; rfl⟩, ?_, ?_, ?_⟩
  · simp only [leap, List.cons_append, List.nil_append, placeholders, placeholdersFrom,
      List.mem_append]
    exact .inr (.inl (by decide))
  · simp [Assembly.isPatched, Assembly.address?, Assembly.label?, hforgotten]
  · exact ⟨_, by rw [Assembly.finish, Assembly.unpatched, hforgotten]; exact if_pos rfl⟩

theorem finish_run_forgets :
    ¬(run (leap 40000 ++ [define ⟨0⟩])).Owes
      ((placeholders (leap 40000 ++ [define ⟨0⟩])).filter fun x =>
        !(run (leap 40000 ++ [define ⟨0⟩])).isPatched x) := by
  obtain ⟨-, hmem, hpatched, image, hfinish⟩ := forgets_leap (n := 40000) (by decide)
  intro howes
  rw [Assembly.Owes, hfinish, if_neg] at howes
  · cases howes
  · exact List.ne_nil_of_mem (List.mem_filter.2 ⟨hmem, by rw [hpatched]; rfl⟩)

end Operation

end MicroJava
