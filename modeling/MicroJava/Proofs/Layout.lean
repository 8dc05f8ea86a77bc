import MicroJava.Proofs.Listing
import MicroJava.Proofs.Run

/-!
# The layout of code that is being written

`Lays a is` says that the code of an assembly is the listing `is`: a jump to a resolved label holds
its distance, a jump to a pending label holds zero and is recorded with the label, and all distances
fit their operands. Each emission that succeeds appends its item to the listing (`Lays.emit`,
`Lays.jump`, `Lays.call`), and defining a label keeps the listing (`Lays.define`).
-/

namespace MicroJava

open Emission

namespace Assembly

variable (a : Assembly)

/-- The address of a label, once it is defined. -/
def address? (l : Label) : Option Nat :=
  match a.label? l with
  | some (.resolved address) => some address
  | _ => none

/-- The operand at a position of a jump to a label: the distance, once it is known. -/
def fill (p : Nat) (l : Label) : Int :=
  match a.address? l with
  | some address => (address : Int) - (p + 2)
  | none => 0

theorem fill_congr {a a' : Assembly} (h : a'.address? = a.address?) : a'.fill = a.fill := by
  funext p l
  simp only [fill, h]

theorem label?_setLabel (l m : Label) (st : LabelState) :
    (a.setLabel l st).label? m =
      if m = l then (a.label? l).map fun _ => st else a.label? m := by
  simp only [label?, setLabel, Array.getElem?_setIfInBounds]
  by_cases hm : m = l
  · subst hm
    simp only [if_true]
    split
    · next hlt => simp [Array.getElem?_eq_getElem hlt]
    · next hge => simp [Array.getElem?_eq_none (Nat.not_lt.1 hge)]
  · have : l.index ≠ m.index := fun heq => hm (by cases l; cases m; simp_all)
    simp [hm, this]

/-- What the labels stand for depends on the labels only. -/
theorem label?_congr {a a' : Assembly} (h : a'.labels = a.labels) : a'.label? = a.label? := by
  funext l
  rw [label?, h, label?]

theorem address?_congr {a a' : Assembly} (h : a'.labels = a.labels) : a'.address? = a.address? := by
  funext l
  rw [address?, label?_congr h, address?]

section SetLabel

variable {a} {l : Label} {st : LabelState}

theorem label?_setLabel_of_known (h : a.label? l = some st) (st' : LabelState) (m : Label) :
    (a.setLabel l st').label? m = if m = l then some st' else a.label? m := by
  rw [label?_setLabel, h]
  rfl

/-- Of the states that a label is set to, the last one counts. -/
theorem setLabel_setLabel (a : Assembly) (l : Label) (st st' : LabelState) (code : Array UInt8) :
    ({ a.setLabel l st with code } : Assembly).setLabel l st' =
      ({ a with code } : Assembly).setLabel l st' := by
  simp [setLabel]

/-- A label that stays pending has no address, as before. -/
theorem address?_setLabel_pending {ps : List Nat} (h : a.label? l = some (.pending ps))
    (qs : List Nat) : (a.setLabel l (.pending qs)).address? = a.address? := by
  funext m
  rw [address?, label?_setLabel_of_known h, address?]
  by_cases hm : m = l
  · rw [if_pos hm, hm, h]
  · rw [if_neg hm]

theorem address?_setLabel_resolved (h : a.label? l = some st) (A : Nat) :
    (a.setLabel l (.resolved A)).address? = fun m => if m = l then some A else a.address? m := by
  funext m
  rw [address?, label?_setLabel_of_known h]
  by_cases hm : m = l
  · rw [if_pos hm, if_pos hm]
  · rw [if_neg hm, if_neg hm, address?]

end SetLabel

theorem fill_of_resolved {a : Assembly} {l : Label} {A : Nat} (h : a.label? l = some (.resolved A))
    (p : Nat) : a.fill p l = (A : Int) - (p + 2) := by
  rw [fill, address?, h]

theorem fill_of_pending {a : Assembly} {l : Label} {ps : List Nat}
    (h : a.label? l = some (.pending ps)) (p : Nat) : a.fill p l = 0 := by
  rw [fill, address?, h]

theorem label?_newLabel (l : Label) :
    a.newLabel.2.label? l = if l.index = a.labels.size then some (.pending []) else a.label? l := by
  simp only [label?, newLabel, Array.getElem?_push]

theorem address?_newLabel : a.newLabel.2.address? = a.address? := by
  funext l
  simp only [address?, label?_newLabel]
  by_cases h : l.index = a.labels.size
  · rw [if_pos h, label?, Array.getElem?_eq_none (by omega)]
  · rw [if_neg h]

theorem index_lt_of_label? {l : Label} {st : LabelState} (h : a.label? l = some st) :
    l.index < a.labels.size :=
  (Array.getElem?_eq_some_iff.1 h).1

theorem unpatched_eq_sum :
    a.unpatched = (a.labels.toList.map LabelState.waiting).sum := by
  simp [unpatched, List.sum, List.foldr_map]

/-- Where no jump waits for its label, none waits for any label. -/
theorem unpatched_eq_zero_iff {a : Assembly} :
    a.unpatched = 0 ↔ ∀ l st, a.label? l = some st → st.waiting = 0 := by
  simp only [unpatched_eq_sum, List.sum_eq_zero_iff_forall_eq_nat, List.forall_mem_map]
  constructor
  · intro h l st hl
    obtain ⟨hlt, rfl⟩ := Array.getElem?_eq_some_iff.1 hl
    exact h _ (Array.getElem_mem_toList hlt)
  · intro h st hst
    obtain ⟨i, hi⟩ := Array.mem_iff_getElem?.1 (Array.mem_toList_iff.1 hst)
    exact h ⟨i⟩ st hi

end Assembly

/-- The distance of a jump or call at the offset `o` fits its operand. -/
def Item.DistanceFits (fill : Nat → Label → Int) (o : Nat) : Item → Prop
  | .plain _ _ => True
  | .jump _ l => InReach (fill (o + 1) l)
  | .call target => InReach ((target : Int) - (o + 3))

/-- The code of an assembly is a listing. -/
structure Lays (a : Assembly) (is : List Item) : Prop where
  code : a.code.toList = encodeFrom a.fill 0 is
  wellFormed : ∀ i ∈ is, i.WellFormed
  pending : ∀ l ps, a.label? l = some (.pending ps) → ps = positionsFrom l 0 is
  known : ∀ op l, .jump op l ∈ is → l.index < a.labels.size
  fit : ∀ pre i post, is = pre ++ i :: post → i.DistanceFits a.fill (codeSize pre)

/-- Where a list with one more item is split. -/
theorem eq_append_cons_of_snoc {α : Type} {is pre post : List α} {i j : α}
    (h : is ++ [i] = pre ++ j :: post) :
    (∃ post', is = pre ++ j :: post') ∨ (pre = is ∧ j = i) := by
  rcases List.eq_nil_or_concat post with rfl | ⟨post', k, rfl⟩
  · obtain ⟨rfl, hj⟩ := List.append_inj' h rfl
    exact .inr ⟨rfl, (List.singleton_inj.1 hj).symm⟩
  · refine .inl ⟨post', ?_⟩
    rw [List.concat_eq_append, ← List.cons_append, ← List.append_assoc] at h
    exact (List.append_inj' h rfl).1

namespace Lays

variable {a a' : Assembly} {is : List Item}

theorem here (h : Lays a is) : a.here = codeSize is := by
  rw [Assembly.here, ← Array.length_toList, h.code, length_encodeFrom h.wellFormed]

/-- The code is read back as the listing. -/
theorem decode (h : Lays a is) :
    Instruction.decode a.code.toList = .ok (instructionsFrom a.fill 0 is) := by
  rw [h.code, decode_encodeFrom h.wellFormed]

theorem nil : Lays {} [] where
  code := rfl
  wellFormed := by simp
  pending := by simp [Assembly.label?]
  known := by simp
  fit := by simp

theorem index_lt_of_address? {l : Label} {A : Nat} (h : a.address? l = some A) :
    l.index < a.labels.size := by
  unfold Assembly.address? at h
  split at h
  · next hl => exact a.index_lt_of_label? hl
  · simp at h

/-- One more item at the end, which leaves the addresses of the labels as they are. -/
theorem snoc (h : Lays a is) {i : Item} (hwf : i.WellFormed)
    (haddress : a'.address? = a.address?) (hsize : a'.labels.size = a.labels.size)
    (hcode : a'.code.toList = a.code.toList ++ i.encodeAt a.fill a.here)
    (hpending : ∀ l ps, a'.label? l = some (.pending ps) →
      ∃ ps', a.label? l = some (.pending ps') ∧ ps = ps' ++ positionsFrom l a.here [i])
    (hknown : ∀ op l, i = .jump op l → l.index < a.labels.size)
    (hfit : i.DistanceFits a.fill a.here) : Lays a' (is ++ [i]) where
  code := by
    rw [Assembly.fill_congr haddress, encodeFrom_append, hcode, h.code, h.here]
    simp [encodeFrom]
  wellFormed := by
    intro j hj
    rcases List.mem_append.1 hj with hj | hj
    · exact h.wellFormed j hj
    · rw [List.mem_singleton.1 hj]
      exact hwf
  pending := by
    intro l ps hps
    obtain ⟨ps', hps', rfl⟩ := hpending l ps hps
    rw [positionsFrom_append, ← h.pending l ps' hps', h.here, Nat.zero_add]
  known := by
    intro op l hl
    rw [hsize]
    rcases List.mem_append.1 hl with hl | hl
    · exact h.known op l hl
    · exact hknown op l (List.mem_singleton.1 hl).symm
  fit := by
    intro pre j post hsplit
    rw [Assembly.fill_congr haddress]
    rcases eq_append_cons_of_snoc hsplit with ⟨post', his⟩ | ⟨rfl, rfl⟩
    · exact h.fit pre j post' his
    · rw [← h.here]
      exact hfit

theorem emit (h : Lays a is) {op : Opcode} {operands : List Int}
    (hwf : (Item.plain op operands).WellFormed) :
    Lays (a.emit op operands) (is ++ [.plain op operands]) :=
  h.snoc hwf rfl rfl (by simp [Assembly.emit, Item.encodeAt, Item.opcode, Item.operandsAt])
    (fun l ps hps => ⟨ps, hps, by simp [positionsFrom]⟩) (by simp) trivial

theorem newLabel (h : Lays a is) : Lays a.newLabel.2 is where
  code := by
    rw [Assembly.fill_congr a.address?_newLabel]
    exact h.code
  wellFormed := h.wellFormed
  pending := by
    intro l ps hps
    rw [Assembly.label?_newLabel] at hps
    split at hps
    · next hl =>
      simp only [Option.some.injEq, LabelState.pending.injEq] at hps
      subst hps
      -- a label that did not exist yet has no jumps
      refine (List.eq_nil_iff_forall_not_mem.2 fun p hp => ?_).symm
      obtain ⟨pre, op, post, rfl, -⟩ := mem_positionsFrom.1 hp
      have := h.known op l (by simp)
      omega
    · exact h.pending l ps hps
  known := by
    intro op l hl
    have := h.known op l hl
    simp only [Assembly.newLabel, Array.size_push]
    omega
  fit := by
    rw [Assembly.fill_congr a.address?_newLabel]
    exact h.fit

end Lays

/-! ### Jumps and calls -/

namespace Emission

variable {a a' : Assembly} {u : Unit}

theorem succeeds_reference {l : Label} :
    Succeeds (reference l) a u a' ↔
      (∃ address, a.label? l = some (.resolved address) ∧
        InReach ((address : Int) - (a.here + 2)) ∧
          a' = a.append (bigEndian 2 ((address : Int) - (a.here + 2)))) ∨
      ∃ ps, a.label? l = some (.pending ps) ∧
        a' = (a.setLabel l (.pending (ps ++ [a.here]))).append (bigEndian 2 0) := by
  simp only [reference, succeeds_bind, succeeds_here, succeeds_labelState]
  constructor
  · rintro ⟨_, _, ⟨rfl, rfl⟩, st, _, ⟨hst, rfl⟩, h⟩
    rcases st with ps | address
    · exact .inr ⟨ps, hst, succeeds_modify.1 h⟩
    · simp only [succeeds_bind, succeeds_distance] at h
      obtain ⟨d, _, ⟨rfl, hd, rfl⟩, h⟩ := h
      exact .inl ⟨address, hst, hd, succeeds_put.1 h⟩
  · rintro (⟨address, hst, hd, rfl⟩ | ⟨ps, hst, rfl⟩)
    · refine ⟨_, _, ⟨rfl, rfl⟩, _, _, ⟨hst, rfl⟩, ?_⟩
      simp only [succeeds_bind, succeeds_distance]
      exact ⟨_, _, ⟨rfl, hd, rfl⟩, succeeds_put.2 rfl⟩
    · exact ⟨_, _, ⟨rfl, rfl⟩, _, _, ⟨hst, rfl⟩, succeeds_modify.2 rfl⟩

theorem kept_reference {l : Label} (hs : Succeeds (reference l) a u a') :
    a'.labels.size = a.labels.size ∧ a'.entry = a.entry ∧ a'.asked = a.asked ∧
      a'.dataSize = a.dataSize := by
  rcases succeeds_reference.1 hs with ⟨address, -, -, rfl⟩ | ⟨ps, -, rfl⟩
  · exact ⟨rfl, rfl, rfl, rfl⟩
  · simp [Assembly.append, Assembly.setLabel]

theorem succeeds_call {target : Nat} :
    Succeeds (call target) a u a' ↔
      InReach ((target : Int) - (a.here + 3)) ∧
        a' = (a.emit .call []).append (bigEndian 2 ((target : Int) - (a.here + 3))) := by
  have hhere : (a.emit .call []).here = a.here + 1 := by
    simp [Assembly.emit, Assembly.here, Opcode.encode]
  simp only [call, succeeds_bind, succeeds_emit, succeeds_here, succeeds_distance]
  have hd : (target : Int) - ((a.here + 1 : Nat) + 2) = target - (a.here + 3) := by omega
  constructor
  · rintro ⟨_, _, rfl, _, _, ⟨rfl, rfl⟩, _, _, ⟨rfl, hd', rfl⟩, h⟩
    rw [hhere, hd] at hd'
    rw [succeeds_put, hhere, hd] at h
    exact ⟨hd', h⟩
  · rintro ⟨hd', rfl⟩
    refine ⟨(), _, rfl, _, _, ⟨rfl, rfl⟩, _, _, ⟨rfl, ?_, rfl⟩, succeeds_put.2 ?_⟩
    · rwa [hhere, hd]
    · rw [hhere, hd]

end Emission

/-- A jump is the byte of its opcode, and the two bytes of its operand. -/
theorem Item.encodeAt_jump {op : Opcode} (hop : op.isJump) (fill : Nat → Label → Int) (o : Nat)
    (l : Label) : (Item.jump op l).encodeAt fill o = op.encode [] ++ bigEndian 2 (fill (o + 1) l) :=
  Opcode.encode_of_isRelative (Opcode.isRelative_of_isJump hop) _

namespace Lays

variable {a a' : Assembly} {is : List Item} {u : Unit}

theorem call (h : Lays a is) {target : Nat} (hs : Succeeds (Emission.call target) a u a') :
    Lays a' (is ++ [.call target]) ∧ a'.address? = a.address? ∧
      a'.labels.size = a.labels.size := by
  obtain ⟨hd, rfl⟩ := succeeds_call.1 hs
  refine ⟨h.snoc trivial rfl rfl ?_ (fun l ps hps => ⟨ps, hps, by simp [positionsFrom]⟩) (by simp)
    hd, rfl, rfl⟩
  have : Opcode.encode .call [(target : Int) - (a.here + 3)] =
      Opcode.encode .call [] ++ bigEndian 2 ((target : Int) - (a.here + 3)) :=
    Opcode.encode_of_isRelative rfl _
  simp [Assembly.emit, Assembly.append, Item.encodeAt, Item.opcode, Item.operandsAt, this]

/-- A jump to a label that is defined: the distance is written at once. -/
theorem jump_resolved (h : Lays a is) {op : Opcode} {l : Label} (hop : op.isJump) {A : Nat}
    (hl : a.label? l = some (.resolved A)) (hd : InReach ((A : Int) - (a.here + 3))) :
    Lays ((a.emit op []).append (bigEndian 2 ((A : Int) - (a.here + 3)))) (is ++ [.jump op l]) := by
  have hfill : a.fill (a.here + 1) l = (A : Int) - (a.here + 3) := by
    rw [Assembly.fill_of_resolved hl]
    omega
  refine h.snoc hop rfl rfl ?_ (fun m ps hps => ⟨ps, hps, ?_⟩) ?_ ?_
  · rw [Item.encodeAt_jump hop, hfill]
    simp [Assembly.emit, Assembly.append]
  · have hne : l ≠ m := by
      rintro rfl
      have hps : a.label? l = some (.pending ps) := hps
      simp [hl] at hps
    simp [positionsFrom, hne]
  · rintro op' m ⟨⟩
    exact a.index_lt_of_label? hl
  · show InReach (a.fill (a.here + 1) l)
    rwa [hfill]

/-- A jump to a label that is pending: the position of the operand is recorded. -/
theorem jump_pending (h : Lays a is) {op : Opcode} {l : Label} (hop : op.isJump) {ps : List Nat}
    (hl : a.label? l = some (.pending ps)) :
    Lays (((a.emit op []).setLabel l (.pending (ps ++ [a.here + 1]))).append (bigEndian 2 0))
      (is ++ [.jump op l]) := by
  have hfill : a.fill (a.here + 1) l = 0 := Assembly.fill_of_pending hl _
  refine h.snoc hop (Assembly.address?_setLabel_pending hl _) ?_ ?_ (fun m qs hqs => ?_) ?_ ?_
  · simp [Assembly.append, Assembly.setLabel, Assembly.emit]
  · rw [Item.encodeAt_jump hop, hfill]
    simp [Assembly.emit, Assembly.append, Assembly.setLabel]
  · have hqs : (a.setLabel l (.pending (ps ++ [a.here + 1]))).label? m = some (.pending qs) := hqs
    rw [Assembly.label?_setLabel_of_known hl] at hqs
    by_cases hm : m = l
    · rw [if_pos hm] at hqs
      obtain rfl := LabelState.pending.inj (Option.some.inj hqs)
      exact ⟨ps, hm ▸ hl, by simp [positionsFrom, hm]⟩
    · rw [if_neg hm] at hqs
      exact ⟨qs, hqs, by simp [positionsFrom, Ne.symm hm]⟩
  · rintro op' m ⟨⟩
    exact a.index_lt_of_label? hl
  · show InReach (a.fill (a.here + 1) l)
    rw [hfill]
    exact ⟨by decide, by decide⟩

theorem jump (h : Lays a is) {op : Opcode} {l : Label} (hop : op.isJump)
    (hs : Succeeds (do Emission.emit op; Emission.reference l) a u a') :
    Lays a' (is ++ [.jump op l]) ∧ a'.address? = a.address? ∧
      a'.labels.size = a.labels.size := by
  have hhere : (a.emit op []).here = a.here + 1 := by
    simp [Assembly.emit, Assembly.here, Opcode.encode]
  simp only [succeeds_bind, succeeds_emit] at hs
  obtain ⟨-, _, rfl, hs⟩ := hs
  rcases succeeds_reference.1 hs with ⟨A, hl, hd, rfl⟩ | ⟨ps, hl, rfl⟩
  · have hdistance : (A : Int) - ((a.emit op []).here + 2) = A - (a.here + 3) := by omega
    rw [hdistance] at hd ⊢
    exact ⟨h.jump_resolved hop hl hd, rfl, rfl⟩
  · rw [hhere]
    refine ⟨h.jump_pending hop hl, Assembly.address?_setLabel_pending hl _, ?_⟩
    simp [Assembly.append, Assembly.setLabel, Assembly.emit]

end Lays

/-! ### Defining a label -/

/-- Code is rendered with a number for each of its operands, and overwriting the operand at one of the
positions is rendering the code with another number there. -/
def Patchwork (render : (Nat → Label → Int) → List UInt8) (ps : List Nat) : Prop :=
  ∀ p ∈ ps, ∀ (code : Array UInt8) (fill : Nat → Label → Int) (v : Int), code.toList = render fill →
    (Assembly.overwrite code p (bigEndian 2 v)).toList =
      render fun q m => if q = p then v else fill q m

/-- Patches a list of operands with their distances to a target. -/
theorem succeeds_patches {render : (Nat → Label → Int) → List UInt8} {target : Nat} :
    ∀ {ps : List Nat} {a a' : Assembly} {fill : Nat → Label → Int} {u : Unit},
      Patchwork render ps → a.code.toList = render fill →
      Succeeds (ps.forM fun p => do patch p (bigEndian 2 (← distance target p))) a u a' →
      (∃ code, a' = { a with code } ∧ code.toList =
        render fun q m => if q ∈ ps then (target : Int) - (q + 2) else fill q m) ∧
      ∀ p ∈ ps, InReach ((target : Int) - (p + 2))
  | [], a, a', fill, u, _, hcode, hs => by
    obtain ⟨-, rfl⟩ := succeeds_pure.1 hs
    exact ⟨⟨a'.code, rfl, by simpa using hcode⟩, by simp⟩
  | p :: ps, a, a', fill, u, hps, hcode, hs => by
    change Succeeds ((do patch p (bigEndian 2 (← distance target p))) >>= fun _ =>
      ps.forM fun p => do patch p (bigEndian 2 (← distance target p))) a u a' at hs
    simp only [succeeds_bind, succeeds_distance, succeeds_patch] at hs
    obtain ⟨_, _, ⟨_, _, ⟨rfl, hd, rfl⟩, -, rfl⟩, hs⟩ := hs
    have hcode₁ := hps p List.mem_cons_self _ _ ((target : Int) - (p + 2)) hcode
    obtain ⟨⟨code, rfl, hcode'⟩, hds⟩ :=
      succeeds_patches (fun q hq => hps q (List.mem_cons_of_mem p hq)) hcode₁ hs
    refine ⟨⟨code, rfl, ?_⟩, List.forall_mem_cons.2 ⟨hd, hds⟩⟩
    rw [hcode']
    congr 1
    funext q m
    by_cases hq : q ∈ ps
    · simp [hq]
    · by_cases hq' : q = p
      · subst hq'
        simp
      · simp [hq, hq']

theorem succeeds_define {a a' : Assembly} {l : Label} {u : Unit} :
    Succeeds (define l) a u a' ↔
      ∃ ps a₁, a.label? l = some (.pending ps) ∧
        Succeeds (ps.forM fun p => do patch p (bigEndian 2 (← distance a.here p)))
          (a.setLabel l (.pending [])) () a₁ ∧ a' = a₁.setLabel l (.resolved a.here) := by
  simp only [define, succeeds_bind, succeeds_here, succeeds_labelState]
  constructor
  · rintro ⟨_, _, ⟨rfl, rfl⟩, st, _, ⟨hst, rfl⟩, h⟩
    rcases st with ps | address
    · simp only [succeeds_bind, succeeds_modify] at h
      obtain ⟨_, _, rfl, _, a₁, h, rfl⟩ := h
      exact ⟨ps, a₁, hst, h, rfl⟩
    · simp [Succeeds, outcome_throw] at h
  · rintro ⟨ps, a₁, hst, h, rfl⟩
    refine ⟨_, _, ⟨rfl, rfl⟩, _, _, ⟨hst, rfl⟩, ?_⟩
    simp only [succeeds_bind, succeeds_modify]
    exact ⟨(), _, rfl, (), a₁, h, rfl⟩

/-- Patching changes the code only. -/
theorem exists_of_patches {target : Nat} :
    ∀ {ps : List Nat} {a a' : Assembly} {u : Unit},
      Succeeds (ps.forM fun p => do patch p (bigEndian 2 (← distance target p))) a u a' →
      ∃ code, a' = { a with code }
  | [], a, a', u, hs => by
    obtain ⟨-, rfl⟩ := succeeds_pure.1 hs
    exact ⟨a'.code, rfl⟩
  | p :: ps, a, a', u, hs => by
    change Succeeds ((do patch p (bigEndian 2 (← distance target p))) >>= fun _ =>
      ps.forM fun p => do patch p (bigEndian 2 (← distance target p))) a u a' at hs
    simp only [succeeds_bind, succeeds_distance, succeeds_patch] at hs
    obtain ⟨_, _, ⟨_, _, ⟨rfl, hd, rfl⟩, -, rfl⟩, hs⟩ := hs
    obtain ⟨code, rfl⟩ := exists_of_patches hs
    exact ⟨code, rfl⟩

/-- Defining a label changes the code and the state of the label only. -/
theorem kept_define {a a' : Assembly} {l : Label} {u : Unit} (hs : Succeeds (define l) a u a') :
    a'.labels.size = a.labels.size ∧ a'.asked = a.asked ∧ a'.dataSize = a.dataSize := by
  obtain ⟨ps, a₁, -, hpatch, rfl⟩ := succeeds_define.1 hs
  obtain ⟨code, rfl⟩ := exists_of_patches hpatch
  simp [Assembly.setLabel]

/-- What defining a label does: it stands for the address of the next instruction, and the operands that
waited for it at the positions hold their distances, which they can hold. -/
structure Defined (render : (Nat → Label → Int) → List UInt8) (a : Assembly) (l : Label) (ps : List Nat)
    (a' : Assembly) : Prop where
  code : a'.code.toList =
    render fun q m => if q ∈ ps then (a.here : Int) - (q + 2) else a.fill q m
  reach : ∀ p ∈ ps, InReach ((a.here : Int) - (p + 2))
  label : ∀ m, a'.label? m = if m = l then some (.resolved a.here) else a.label? m
  address : a'.address? = fun m => if m = l then some a.here else a.address? m
  size : a'.labels.size = a.labels.size
  entry : a'.entry = a.entry
  dataSize : a'.dataSize = a.dataSize

theorem Defined.of_succeeds {render : (Nat → Label → Int) → List UInt8} {a a' : Assembly} {l : Label}
    {u : Unit} (hcode : a.code.toList = render a.fill)
    (hrender : ∀ ps, a.label? l = some (.pending ps) → Patchwork render ps)
    (hs : Succeeds (Emission.define l) a u a') :
    ∃ ps, a.label? l = some (.pending ps) ∧ Defined render a l ps a' := by
  obtain ⟨ps, a₁, hl, hpatch, rfl⟩ := succeeds_define.1 hs
  obtain ⟨⟨code, rfl, hcode'⟩, hreach⟩ := succeeds_patches (hrender ps hl)
    (show (a.setLabel l (.pending [])).code.toList = _ from hcode) hpatch
  rw [Assembly.setLabel_setLabel]
  exact ⟨ps, hl, hcode', hreach, Assembly.label?_setLabel_of_known hl (.resolved a.here),
    Assembly.address?_setLabel_resolved hl a.here, by simp [Assembly.setLabel], rfl, rfl⟩

/-- A label that waits for its operands has another state behind its definition. -/
theorem Defined.pending {render : (Nat → Label → Int) → List UInt8} {a a' : Assembly} {l m : Label}
    {ps qs : List Nat} (h : Defined render a l ps a') (hqs : a'.label? m = some (.pending qs)) :
    a.label? m = some (.pending qs) := by
  rw [h.label] at hqs
  split at hqs
  · simp at hqs
  · exact hqs

/-- The operand of a jump is one of the operands of its label only. -/
theorem mem_positionsFrom_jump {l m : Label} {op : Opcode} {pre post : List Item} :
    codeSize pre + 1 ∈ positionsFrom l 0 (pre ++ .jump op m :: post) ↔ m = l := by
  rw [mem_positionsFrom]
  constructor
  · rintro ⟨pre', op', post', his, hsize⟩
    obtain ⟨rfl, hpost⟩ := prefix_unique (by omega) his
    simp only [List.cons.injEq, Item.jump.injEq] at hpost
    exact hpost.1.2
  · rintro rfl
    exact ⟨pre, op, post, rfl, by omega⟩

/-- The label was pending, and stands for the address of the next instruction from now on. -/
theorem Lays.define {a a' : Assembly} {is : List Item} {l : Label} {u : Unit} (h : Lays a is)
    (hs : Succeeds (Emission.define l) a u a') :
    Lays a' is ∧ a.address? l = none ∧
      (a'.address? = fun m => if m = l then some a.here else a.address? m) ∧
        a'.labels.size = a.labels.size ∧ a'.entry = a.entry ∧ a'.dataSize = a.dataSize := by
  have hrender : ∀ ps, a.label? l = some (.pending ps) → Patchwork (encodeFrom · 0 is) ps := by
    intro ps hps p hp code fill v hcode
    rw [h.pending l ps hps] at hp
    obtain ⟨pre, op, post, rfl, rfl⟩ := mem_positionsFrom.1 hp
    rw [Nat.zero_add]
    exact overwrite_encodeFrom h.wellFormed hcode v
  obtain ⟨ps, hl, hdefined⟩ := Defined.of_succeeds h.code hrender hs
  obtain rfl : ps = positionsFrom l 0 is := h.pending l ps hl
  -- the patched operands are those of the jumps to the label
  have hfill : ∀ pre op m post, is = pre ++ .jump op m :: post →
      a'.fill (codeSize pre + 1) m =
        if codeSize pre + 1 ∈ positionsFrom l 0 is then (a.here : Int) - ((codeSize pre + 1 : Nat) + 2)
        else a.fill (codeSize pre + 1) m := by
    rintro pre op m post rfl
    simp only [Assembly.fill, hdefined.address, mem_positionsFrom_jump]
    by_cases hm : m = l
    · rw [if_pos hm, if_pos hm]
    · rw [if_neg hm, if_neg hm]
  refine ⟨⟨?_, h.wellFormed, fun m qs hqs => h.pending m qs (hdefined.pending hqs), fun op m hm => ?_,
    fun pre i post his => ?_⟩, by rw [Assembly.address?, hl], hdefined.address, hdefined.size,
    hdefined.entry, hdefined.dataSize⟩
  · rw [hdefined.code]
    refine encodeFrom_congr fun pre op m post his => ?_
    rw [Nat.zero_add]
    exact (hfill pre op m post his).symm
  · rw [hdefined.size]
    exact h.known op m hm
  · have hi := h.fit pre i post his
    cases i with
    | plain op operands => trivial
    | call target => exact hi
    | jump op m =>
      show InReach _
      rw [hfill pre op m post his]
      split
      · next hmem => exact hdefined.reach _ hmem
      · exact hi

end MicroJava
