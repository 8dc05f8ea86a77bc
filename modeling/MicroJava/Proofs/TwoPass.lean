import MicroJava.Proofs.Operation

/-!
# Patching is assembling in two passes

An assembler in two passes first adds up the sizes of the operations, which gives every label its
address, and then writes each operation with all addresses at hand (`Operation.assemble?`). Operations
that are performed one by one, where jumps are patched once their labels are defined, write the same
bytes (`performed_assembles`): after each of them the code is the draft of the operations so far
(`Drafts.performs`).
-/

namespace MicroJava

open Emission

namespace Operation

/-! ### The two passes -/

/-- How many bytes the operation writes. -/
def size : Operation → Nat
  | write w => w.bytes.length
  | reference _ => 2
  | call _ | jump _ | jumpIfFalse _ | jumpIfTrue _ => 3
  | newLabel | define _ => 0

/-- The address at which a label is defined, where the first operation stands at the position `p`. -/
def addressFrom (l : Label) : Nat → List Operation → Option Nat
  | _, [] => none
  | p, o :: os => if o = define l then some p else addressFrom l (p + o.size) os

/-- The operand at the position `p` that leads to an address: the distance from its end, in two
bytes. -/
def distanceBytes? (p address : Nat) : Option (List UInt8) :=
  let d : Int := (address : Int) - (p + 2)
  if InReach d then some (bigEndian 2 d) else none

/-- The bytes of an operation at the position `p`, where the labels have the addresses `A`. -/
def bytesAt? (A : Label → Option Nat) (p : Nat) : Operation → Option (List UInt8)
  | write w => some w.bytes
  | newLabel | define _ => some []
  | call target => (distanceBytes? (p + 1) target).map (Opcode.call.byte :: ·)
  | reference l => (A l).bind (distanceBytes? p)
  | jump l => ((A l).bind (distanceBytes? (p + 1))).map (Opcode.jump.byte :: ·)
  | jumpIfFalse b =>
    ((A b.whenFalse).bind (distanceBytes? (p + 1))).map (b.comparison.inverse.jump.byte :: ·)
  | jumpIfTrue b =>
    ((A b.whenTrue).bind (distanceBytes? (p + 1))).map (b.comparison.jump.byte :: ·)

/-- The second pass. -/
def bytesFrom? (A : Label → Option Nat) : Nat → List Operation → Option (List UInt8)
  | _, [] => some []
  | p, o :: os => do return (← o.bytesAt? A p) ++ (← bytesFrom? A (p + o.size) os)

/-- The code of operations, unless a label has no address or is too far from a jump to it. -/
def assemble? (os : List Operation) : Option (List UInt8) :=
  bytesFrom? (addressFrom · 0 os) 0 os

/-- The length of the code of operations. -/
def totalSize (os : List Operation) : Nat := (os.map size).sum

/-- The positions of the operands of a label, where the first operation stands at the position `p`. -/
def positionsFrom (l : Label) : Nat → List Operation → List Nat
  | _, [] => []
  | p, o :: os =>
    ((o.operand? p).toList.filter (·.1 = l)).map (·.2) ++ positionsFrom l (p + o.size) os

/-- The distances that an operation behind others has to write or to patch. -/
def distances (os : List Operation) : Operation → List Int
  | call target => [(target : Int) - (totalSize os + 3)]
  | define l =>
    if addressFrom l 0 os = none then
      (positionsFrom l 0 os).map fun p : Nat => (totalSize os : Int) - (p + 2)
    else []
  | o => ((o.operand? (totalSize os)).bind fun (l, p) =>
      (addressFrom l 0 os).map fun address : Nat => (address : Int) - (p + 2)).toList

/-! ### Operations as drafts -/

/-- The draft of operations, where the first one stands at the position `p`. -/
def fragmentsFrom : Nat → List Operation → List Fragment
  | _, [] => []
  | p, o :: os => o.fragments p ++ fragmentsFrom (p + o.size) os

theorem draftSize_fragments (p : Nat) (o : Operation) : draftSize (o.fragments p) = o.size := by
  cases o <;> simp [fragments, jump?, opcodeBytes, size, Fragment.size]

@[simp] theorem draftSize_fragmentsFrom (p : Nat) (os : List Operation) :
    draftSize (fragmentsFrom p os) = totalSize os := by
  induction os generalizing p with
  | nil => rfl
  | cons o os ih => simp [fragmentsFrom, totalSize, draftSize_fragments, ih]

theorem operandsFrom_fragments (l : Label) (p : Nat) (o : Operation) :
    operandsFrom l p (o.fragments p) = ((o.operand? p).toList.filter (·.1 = l)).map (·.2) := by
  rcases h : o.jump? with _ | ⟨op, m⟩
  · cases o <;> simp_all [fragments, operand?, jump?, operandsFrom]
  · rw [fragments_jump h]
    by_cases hm : m = l <;> simp [operand?, h, operandsFrom, hm]

theorem operandsFrom_fragmentsFrom (l : Label) (p : Nat) (os : List Operation) :
    operandsFrom l p (fragmentsFrom p os) = positionsFrom l p os := by
  induction os generalizing p with
  | nil => rfl
  | cons o os ih =>
    rw [fragmentsFrom, operandsFrom_append, operandsFrom_fragments, draftSize_fragments, ih,
      positionsFrom]

/-- Every operand leads to the address of its label, and no operand and no call is too far. -/
structure Connects (A : Label → Option Nat) (fill : Nat → Label → Int) (p : Nat)
    (os : List Operation) : Prop where
  operand : ∀ l, ∀ q ∈ positionsFrom l p os, ∃ t, A l = some t ∧ fill q l = (t : Int) - (q + 2) ∧
    InReach (fill q l)
  call : ∀ pre (target : Nat) post, os = pre ++ Operation.call target :: post →
    InReach ((target : Int) - ((p + totalSize pre : Nat) + 3))

theorem Connects.tail {A : Label → Option Nat} {fill : Nat → Label → Int} {p : Nat} {o : Operation}
    {os : List Operation} (h : Connects A fill p (o :: os)) : Connects A fill (p + o.size) os where
  operand := fun l q hq => h.operand l q (by simp [positionsFrom, hq])
  call := fun pre target post hos => by
    have := h.call (o :: pre) target post (by rw [hos, List.cons_append])
    simpa [totalSize, Nat.add_assoc] using this

theorem bytesAt?_jump {A : Label → Option Nat} {p : Nat} {o : Operation} {op : Option Opcode}
    {l : Label} (h : o.jump? = some (op, l)) :
    o.bytesAt? A p = ((A l).bind (distanceBytes? (p + (opcodeBytes op).length))).map
      (opcodeBytes op ++ ·) := by
  cases o with
  | reference m =>
    obtain ⟨rfl, rfl⟩ : none = op ∧ m = l := by simpa [jump?] using h
    simp [bytesAt?, opcodeBytes]
  | jump m =>
    obtain ⟨rfl, rfl⟩ : some .jump = op ∧ m = l := by simpa [jump?] using h
    rfl
  | jumpIfFalse b =>
    obtain ⟨rfl, rfl⟩ : some _ = op ∧ b.whenFalse = l := by simpa [jump?] using h
    rfl
  | jumpIfTrue b =>
    obtain ⟨rfl, rfl⟩ : some _ = op ∧ b.whenTrue = l := by simpa [jump?] using h
    rfl
  | _ => simp [jump?] at h

theorem Connects.bytesAt? {A : Label → Option Nat} {fill : Nat → Label → Int} {p : Nat}
    {o : Operation} {os : List Operation} (h : Connects A fill p (o :: os)) :
    o.bytesAt? A p = some (renderFrom fill p (o.fragments p)) := by
  rcases hjump : o.jump? with _ | ⟨op, l⟩
  · cases o with
    | write w => simp [Operation.bytesAt?, fragments, renderFrom, Fragment.encodeAt]
    | newLabel => rfl
    | define l => rfl
    | call target =>
      have hreach := h.call [] target os rfl
      have hd : (target : Int) - ((p + 1 : Nat) + 2) = target - (p + 3) := by omega
      simp only [totalSize, List.map_nil, List.sum_nil, Nat.add_zero] at hreach
      simp only [Operation.bytesAt?, distanceBytes?, hd, if_pos hreach]
      simp [fragments, renderFrom, Fragment.encodeAt]
    | _ => simp [jump?] at hjump
  · obtain ⟨t, ht, hfill, hreach⟩ := h.operand l (p + (opcodeBytes op).length) (by
      simp [positionsFrom, operand?, hjump])
    rw [bytesAt?_jump hjump, ht, Option.bind_some, distanceBytes?, ← hfill, if_pos hreach,
      fragments_jump hjump]
    simp [renderFrom, Fragment.encodeAt, Fragment.size]

/-- The second pass writes the draft. -/
theorem Connects.bytesFrom? {A : Label → Option Nat} {fill : Nat → Label → Int} {p : Nat}
    {os : List Operation} (h : Connects A fill p os) :
    bytesFrom? A p os = some (renderFrom fill p (fragmentsFrom p os)) := by
  induction os generalizing p with
  | nil => rfl
  | cons o os ih =>
    rw [Operation.bytesFrom?, h.bytesAt?, ih h.tail, fragmentsFrom, renderFrom_append,
      draftSize_fragments]
    rfl

end Operation

/-! ### Performing operations -/

namespace Drafts

open Operation

/-- Operations that succeed one after the other write their draft, and give the labels the addresses of
the first pass. -/
theorem performs : ∀ {os : List Operation} {a a' : Assembly} {fs : List Fragment} {u : Unit},
    Drafts a fs → Succeeds (os.forM Operation.perform) a u a' →
      Drafts a' (fs ++ fragmentsFrom a.here os) ∧
      (∀ l, a'.address? l = (a.address? l).or (addressFrom l a.here os)) ∧
      ∀ pre (target : Nat) post, os = pre ++ Operation.call target :: post →
        InReach ((target : Int) - ((a.here + totalSize pre : Nat) + 3))
  | [], a, a', fs, u, h, hs => by
    obtain ⟨-, rfl⟩ := succeeds_pure.1 hs
    exact ⟨by simpa [fragmentsFrom] using h, by simp [addressFrom], by simp⟩
  | o :: os, a, a', fs, u, h, hs => by
    change Succeeds (o.perform >>= fun _ => os.forM Operation.perform) a u a' at hs
    obtain ⟨_, a₁, ho, hs⟩ := succeeds_bind.1 hs
    obtain ⟨h₁, hperforms⟩ := h.perform ho
    obtain ⟨h', haddress, hcalls⟩ := performs h₁ hs
    have hhere : a₁.here = a.here + o.size := by
      rw [h₁.here, draftSize_append, draftSize_fragments, h.here]
    rw [hhere] at h' haddress hcalls
    refine ⟨?_, fun l => ?_, fun pre target post hsplit => ?_⟩
    · rw [fragmentsFrom, ← List.append_assoc]
      exact h'
    · rw [haddress, hperforms.address, addressFrom]
      by_cases hl : o = .define l
      · simp [hl, hperforms.fresh l hl]
      · simp [hl]
    · rcases pre with _ | ⟨o', pre⟩
      · obtain ⟨rfl, -⟩ := List.cons.inj hsplit
        simpa [totalSize] using hperforms.call target rfl
      · obtain ⟨rfl, htail⟩ := List.cons.inj hsplit
        simpa [totalSize, Nat.add_assoc] using hcalls pre target post htail

end Drafts

namespace Operation

variable {os : List Operation} {a : Assembly} {u : Unit}

theorem drafts_of_succeeds (h : Succeeds (os.forM perform) {} u a) :
    Drafts a (fragmentsFrom 0 os) ∧ (∀ l, a.address? l = addressFrom l 0 os) := by
  obtain ⟨hdrafts, haddress, -⟩ := Drafts.nil.performs h
  replace haddress : ∀ l, a.address? l = addressFrom l 0 os := haddress
  exact ⟨hdrafts, haddress⟩

/-- A label that is named has an address where no jump is left unpatched. -/
theorem connects_of_succeeds (h : Succeeds (os.forM perform) {} u a) (hfinish : a.unpatched = 0) :
    Connects (addressFrom · 0 os) a.fill 0 os := by
  obtain ⟨hdrafts, haddress, hcalls⟩ := Drafts.nil.performs h
  replace hdrafts : Drafts a (fragmentsFrom 0 os) := hdrafts
  refine ⟨fun l q hq => ?_, hcalls⟩
  rw [← operandsFrom_fragmentsFrom] at hq
  have hknown : l.index < a.labels.size := by
    obtain ⟨pre, post, hsplit, -⟩ := mem_operandsFrom.1 hq
    exact hdrafts.known l (by simp [hsplit])
  obtain ⟨st, hst⟩ : ∃ st, a.label? l = some st := ⟨_, Array.getElem?_eq_getElem hknown⟩
  rcases st with ps | t
  · -- the operand itself would wait for the label
    have hwaiting := Assembly.unpatched_eq_zero_iff.1 hfinish l _ hst
    rw [← hdrafts.pending l ps hst, List.length_eq_zero_iff.1 hwaiting] at hq
    contradiction
  · have ht : a.address? l = some t := by simp [Assembly.address?, hst]
    refine ⟨t, ?_, by simp [Assembly.fill, ht], hdrafts.fit l q hq⟩
    rw [← (drafts_of_succeeds h).2, ht]

/-- Where the second pass finds all addresses, every label that is named has one. -/
theorem address_of_bytesFrom? {A : Label → Option Nat} {p : Nat} {bs : List UInt8}
    (h : bytesFrom? A p os = some bs) {l : Label} {q : Nat} (hq : q ∈ positionsFrom l p os) :
    ∃ t, A l = some t := by
  induction os generalizing p bs with
  | nil => contradiction
  | cons o os ih =>
    obtain ⟨front, hfront, back, hback, -⟩ : ∃ front, o.bytesAt? A p = some front ∧
        ∃ back, bytesFrom? A (p + o.size) os = some back ∧ front ++ back = bs := by
      simpa [bytesFrom?, Option.bind_eq_some_iff] using h
    rw [positionsFrom, List.mem_append] at hq
    rcases hq with hq | hq
    · rcases hjump : o.jump? with _ | ⟨op, m⟩
      · simp [operand?, hjump] at hq
      · obtain rfl : m = l := by
          simp only [operand?, hjump, Option.map_some, Option.toList_some, List.mem_map,
            List.mem_filter, List.mem_singleton, decide_eq_true_eq] at hq
          obtain ⟨_, ⟨rfl, hm⟩, -⟩ := hq
          exact hm
        rw [bytesAt?_jump hjump] at hfront
        rcases hA : A m with _ | t
        · simp [hA] at hfront
        · exact ⟨t, rfl⟩
    · exact ih hback hq

/-- The code of operations that succeed is finished exactly if they can be assembled in two passes, and
then it is the same. -/
theorem assemble?_eq_some_iff (h : Succeeds (os.forM perform) {} u a) (bs : List UInt8) :
    assemble? os = some bs ↔ ∃ image, a.finish = .ok image ∧ image.code.toList = bs := by
  obtain ⟨hdrafts, haddress⟩ := drafts_of_succeeds h
  have hdone : a.unpatched = 0 → assemble? os = some a.code.toList := fun hfinish => by
    rw [assemble?, (connects_of_succeeds h hfinish).bytesFrom?, hdrafts.code]
  constructor
  · intro hbs
    have hfinish : a.unpatched = 0 := by
      refine Assembly.unpatched_eq_zero_iff.2 fun l st hl => ?_
      rcases st with ps | t
      · rw [LabelState.waiting, List.length_eq_zero_iff, List.eq_nil_iff_forall_not_mem]
        intro q hq
        rw [hdrafts.pending l ps hl, operandsFrom_fragmentsFrom] at hq
        obtain ⟨t, ht⟩ := address_of_bytesFrom? hbs hq
        rw [← haddress] at ht
        simp [Assembly.address?, hl] at ht
      · rfl
    refine ⟨_, by rw [Assembly.finish, if_pos hfinish], ?_⟩
    exact Option.some.inj ((hdone hfinish).symm.trans hbs)
  · rintro ⟨image, himage, rfl⟩
    unfold Assembly.finish at himage
    split at himage
    · next hfinish =>
      obtain rfl := Except.ok.inj himage
      exact hdone hfinish
    · contradiction

/-- Behind operations that succeed, an operation is too far exactly if one of its distances is. -/
theorem overreaches_iff (h : Succeeds (os.forM perform) {} u a) (o : Operation) :
    o.Overreaches a ↔ ∃ d ∈ o.distances os, ¬InReach d := by
  obtain ⟨hdrafts, haddress⟩ := drafts_of_succeeds h
  have hhere : a.here = totalSize os := by rw [hdrafts.here, draftSize_fragmentsFrom]
  have hpending : ∀ l ps, a.label? l = some (.pending ps) → ps = positionsFrom l 0 os :=
    fun l ps hl => (hdrafts.pending l ps hl).trans (operandsFrom_fragmentsFrom l 0 os)
  rcases hjump : o.jump? with _ | ⟨op, l⟩
  · cases o with
    | write w => simp [not_overreaches_write, distances, operand?, jump?]
    | newLabel => simp [not_overreaches_newLabel, distances, operand?, jump?]
    | call target => simp [overreaches_call, distances, hhere]
    | define l =>
      rw [overreaches_define (hdrafts.position_le l), distances, ← haddress, hhere]
      constructor
      · rintro ⟨ps, hl, p, hp, hfar⟩
        rw [if_pos (by simp [Assembly.address?, hl])]
        exact ⟨_, List.mem_map_of_mem (hpending l ps hl ▸ hp), hfar⟩
      · rintro ⟨d, hd, hfar⟩
        split at hd
        · next hnone =>
          obtain ⟨p, hp, rfl⟩ := List.mem_map.1 hd
          -- a label with an operand exists
          rcases hl : a.label? l with _ | ps | A
          · rw [← operandsFrom_fragmentsFrom] at hp
            obtain ⟨pre, post, hsplit, -⟩ := mem_operandsFrom.1 hp
            have := hdrafts.known l (by simp [hsplit])
            rw [Assembly.label?, Array.getElem?_eq_none_iff] at hl
            omega
          · exact ⟨ps, rfl, p, hpending l ps hl ▸ hp, hfar⟩
          · simp [Assembly.address?, hl] at hnone
        · contradiction
    | _ => simp [jump?] at hjump
  · rw [overreaches_jump hjump, haddress, hhere]
    have hdistances : o.distances os = ((o.operand? (totalSize os)).bind fun (l, p) =>
        (addressFrom l 0 os).map fun address : Nat => (address : Int) - (p + 2)).toList := by
      cases o <;> first | rfl | simp [jump?] at hjump
    rw [hdistances, operand?, hjump]
    simp

/-- Performing operations one by one, with jumps that are patched once their labels are defined, is
assembling them in two passes: the code that is finished is the same, and an operation is too far
exactly if a distance that it has to write or to patch is. -/
theorem performed_assembles (os : List Operation) (a : Assembly)
    (h : Succeeds (os.forM perform) {} () a) :
    (∀ bs, assemble? os = some bs ↔ ∃ image, a.finish = .ok image ∧ image.code.toList = bs) ∧
      ∀ o : Operation, o.Overreaches a ↔ ∃ d ∈ o.distances os, ¬InReach d :=
  ⟨assemble?_eq_some_iff h, overreaches_iff h⟩

/-- A loop, with a jump back and a jump out of it. -/
def loop : List Operation :=
  [newLabel, newLabel, define ⟨0⟩, jump ⟨1⟩, jump ⟨0⟩, write (.emit .ret), define ⟨1⟩]

theorem performed_assembles_loop :
    ∃ a image, Succeeds (loop.forM perform) {} () a ∧ a.finish = .ok image ∧
      image.code.toList = Opcode.jump.byte :: bigEndian 2 4 ++
        Opcode.jump.byte :: bigEndian 2 (-6) ++ [Opcode.ret.byte] := by
  have h : Succeeds (loop.forM perform) {} () _ := rfl
  have hcode : assemble? loop = some (Opcode.jump.byte :: bigEndian 2 4 ++
      Opcode.jump.byte :: bigEndian 2 (-6) ++ [Opcode.ret.byte]) := by decide
  obtain ⟨image, hfinish, hcode⟩ := ((performed_assembles _ _ h).1 _).1 hcode
  exact ⟨_, image, h, hfinish, hcode⟩

end Operation

end MicroJava
