import MicroJava.Proofs.Draft

/-!
# Operations on code

What can be done with code that is being written (`Operation`). The operations that only write append
the same bytes wherever they are performed (`Writing.perform_eq`). An operation that names a label writes
an operand behind its opcode, and an operation that succeeds adds its fragments to the draft
(`Drafts.perform`). A jump or call that is too far leaves its opcode behind, and a label that cannot be
defined for that reason has forgotten the jumps that wait for it (`Emission.outcome_define`).
-/

namespace MicroJava

open Emission

/-! ### Emissions that only write -/

namespace Emission

variable {ε ε' α β : Type}

/-- The emission with its errors renamed. -/
def mapError (f : ε → ε') (e : Emission ε α) : Emission ε' α := ExceptT.adapt f e

theorem outcome_mapError (f : ε → ε') (e : Emission ε α) (a : Assembly) :
    (e.mapError f).outcome a = ((e.outcome a).1.mapError f, (e.outcome a).2) := rfl

theorem succeeds_mapError {f : ε → ε'} {e : Emission ε α} {a a' : Assembly} {x : α} :
    Succeeds (e.mapError f) a x a' ↔ Succeeds e a x a' := by
  unfold Succeeds
  rw [outcome_mapError]
  rcases e.outcome a with ⟨p | y, a₁⟩ <;> simp [Except.mapError]

/-- The emission appends the same bytes, with the same outcome, wherever it is performed. -/
def Steady (e : Emission ε α) : Prop :=
  ∃ r bs, ∀ a, (e.outcome a).1 = r ∧ (e.outcome a).2.code.toList = a.code.toList ++ bs ∧
    (e.outcome a).2.labels = a.labels

theorem steady_pure (x : α) : Steady (pure x : Emission ε α) :=
  ⟨.ok x, [], fun a => ⟨rfl, (List.append_nil a.code.toList).symm, rfl⟩⟩

theorem steady_throw (p : ε) : Steady (throw p : Emission ε α) :=
  ⟨.error p, [], fun a => ⟨rfl, (List.append_nil a.code.toList).symm, rfl⟩⟩

theorem steady_put (bs : List UInt8) : Steady (put bs : Emission ε Unit) :=
  ⟨.ok (), bs, fun _ => ⟨rfl, Array.toList_appendList, rfl⟩⟩

theorem steady_emit (op : Opcode) (operands : List Int) :
    Steady (emit op operands : Emission ε Unit) :=
  ⟨.ok (), op.encode operands, fun _ => ⟨rfl, Array.toList_appendList, rfl⟩⟩

theorem steady_bind {e : Emission ε α} {f : α → Emission ε β} (he : Steady e)
    (hf : ∀ x, Steady (f x)) : Steady (e >>= f) := by
  obtain ⟨r, bs, he⟩ := he
  rcases r with p | x
  · refine ⟨.error p, bs, fun a => ?_⟩
    obtain ⟨hr, hcode, hlabels⟩ := he a
    rw [outcome_bind]
    rcases hout : outcome e a with ⟨r, a₁⟩
    rw [hout] at hr hcode hlabels
    obtain rfl : r = .error p := hr
    exact ⟨rfl, hcode, hlabels⟩
  · obtain ⟨r', bs', hf⟩ := hf x
    refine ⟨r', bs ++ bs', fun a => ?_⟩
    obtain ⟨hr, hcode, hlabels⟩ := he a
    rw [outcome_bind]
    rcases hout : outcome e a with ⟨r, a₁⟩
    rw [hout] at hr hcode hlabels
    obtain rfl : r = .ok x := hr
    obtain ⟨hr', hcode', hlabels'⟩ := hf a₁
    have hcode : a₁.code.toList = a.code.toList ++ bs := hcode
    exact ⟨hr', by rw [hcode', hcode, List.append_assoc], hlabels'.trans hlabels⟩

theorem steady_constant (v : Int32) : Steady (constant v : Emission ε Unit) := steady_emit _ _

theorem steady_load (x : Operand) : Steady (load x) := by
  unfold load
  split
  all_goals first | exact steady_emit _ _ | exact steady_pure _ | exact steady_throw _

theorem steady_store (x : Operand) : Steady (store x) := by
  unfold store
  split
  all_goals first | exact steady_emit _ _ | exact steady_throw _

theorem steady_assign (target value : Operand) (operator : Option Opcode) :
    Steady (assign target value operator) := by
  refine steady_bind (steady_load value) fun _ => steady_bind ?_ fun _ => steady_store target
  rcases operator with _ | op
  · exact steady_pure _
  · exact steady_emit _ _

theorem steady_loadForUpdate (x : Operand) : Steady (loadForUpdate x) := by
  unfold loadForUpdate
  split
  all_goals first
    | exact steady_load x
    | exact steady_bind (steady_emit _ _) fun _ => steady_load x
    | exact steady_throw _

theorem steady_incrementPlace (x : Operand) (step : Int32) : Steady (incrementPlace x step) := by
  have hkeep : Steady (keepPlace x) := by
    unfold keepPlace
    split
    all_goals first | exact steady_emit _ _ | exact steady_pure _ | exact steady_throw _
  exact steady_bind hkeep fun _ => steady_bind (steady_load x) fun _ =>
    steady_bind (steady_constant step) fun _ => steady_bind (steady_emit _ _) fun _ =>
      steady_store x

theorem steady_newArray (length : Option Int32) (element : TypeId) :
    Steady (newArray length element : Emission ε Unit) := by
  refine steady_bind ?_ fun _ => steady_emit _ _
  rcases length with _ | v
  · exact steady_pure _
  · exact steady_constant v

end Emission

/-! ### Operations -/

/-- An operation that only writes. -/
inductive Writing where
  | put (b : UInt8)
  | put2 (v : Int32)
  | put4 (v : Int32)
  | emit (op : Opcode)
  | constant (v : Int32)
  | load (x : Operand)
  | store (x : Operand)
  | assign (target value : Operand) (operator : Option Opcode)
  | loadForUpdate (x : Operand)
  | incrementFrame (slot : Nat) (step : Int32)
  | incrementPlace (x : Operand) (step : Int32)
  | newObject (size : Nat)
  | newArray (length : Option Int32) (element : TypeId)
  | storeElement (element : TypeId)
  | enter (parameters size : Nat)
  deriving DecidableEq

namespace Writing

def perform : Writing → Emission Problem Unit
  | put b => Emission.put [b]
  | put2 v => Emission.put (bigEndian 2 v.toInt)
  | put4 v => Emission.put (bigEndian 4 v.toInt)
  | emit op => Emission.emit op
  | constant v => Emission.constant v
  | load x => Emission.load x
  | store x => Emission.store x
  | assign target value operator => Emission.assign target value operator
  | loadForUpdate x => Emission.loadForUpdate x
  | incrementFrame slot step => Emission.incrementFrame slot step.toInt
  | incrementPlace x step => Emission.incrementPlace x step
  | newObject size => Emission.newObject size
  | newArray length element => Emission.newArray length element
  | storeElement element => Emission.storeElement element
  | enter parameters size => Emission.enter parameters size

theorem steady_perform (w : Writing) : Steady w.perform := by
  cases w with
  | put | put2 | put4 => exact steady_put _
  | emit | incrementFrame | newObject | storeElement | enter => exact steady_emit _ _
  | constant v => exact steady_constant v
  | load x => exact steady_load x
  | store x => exact steady_store x
  | assign => exact steady_assign ..
  | loadForUpdate x => exact steady_loadForUpdate x
  | incrementPlace => exact steady_incrementPlace ..
  | newArray => exact steady_newArray ..

/-- What the operation writes where nothing is written yet. -/
def bytes (w : Writing) : List UInt8 := (w.perform.outcome {}).2.code.toList

/-- The operation appends its bytes, wherever it is performed. -/
theorem perform_eq (w : Writing) (a : Assembly) :
    (w.perform.outcome a).2.code.toList = a.code.toList ++ w.bytes ∧
      (w.perform.outcome a).2.labels = a.labels := by
  obtain ⟨r, bs, h⟩ := w.steady_perform
  have hbytes : w.bytes = bs := (h {}).2.1.trans (List.nil_append bs)
  exact hbytes ▸ (h a).2

theorem bytes_emit (op : Opcode) : (emit op).bytes = [op.byte] := by
  simp [bytes, perform, outcome_emit, Assembly.emit, Opcode.encode]

end Writing

/-- An operation on code that is being written. -/
inductive Operation where
  | write (w : Writing)
  | call (target : Nat)
  | newLabel
  | reference (l : Label)
  | jump (l : Label)
  | jumpIfFalse (b : Branch)
  | jumpIfTrue (b : Branch)
  | define (l : Label)
  deriving DecidableEq

/-- Why an operation has failed. -/
inductive Failure where
  | fault (f : Fault)
  | problem (p : Problem)
  deriving DecidableEq

namespace Operation

def perform : Operation → Emission Failure Unit
  | write w => w.perform.mapError .problem
  | call target => (Emission.call target).mapError .fault
  | newLabel => discard Emission.newLabel
  | reference l => (Emission.reference l).mapError .fault
  | jump l => (Emission.jump l).mapError .fault
  | jumpIfFalse b => (Emission.jumpIfFalse b).mapError .fault
  | jumpIfTrue b => (Emission.jumpIfTrue b).mapError .fault
  | define l => (Emission.define l).mapError .fault

/-- The code behind the operation, whether it fails or not. -/
def after (o : Operation) (a : Assembly) : Assembly := (o.perform.outcome a).2

/-- The operation fails because a jump or call is too far. -/
def Overreaches (o : Operation) (a : Assembly) : Prop :=
  ∃ position d, (o.perform.outcome a).1 = .error (.fault (.jumpOutOfRange position d))

/-- The label whose operand is written, and the opcode in front of the operand, if there is one. -/
def jump? : Operation → Option (Option Opcode × Label)
  | reference l => some (none, l)
  | jump l => some (some .jump, l)
  | jumpIfFalse b => some (some b.comparison.inverse.jump, b.whenFalse)
  | jumpIfTrue b => some (some b.comparison.jump, b.whenTrue)
  | _ => none

/-- An opcode alone. -/
def opcodeBytes (op : Option Opcode) : List UInt8 := op.toList.map Opcode.byte

/-- The label that the operation names, with the position of its operand, where the operation stands at
the position `p`. -/
def operand? (p : Nat) (o : Operation) : Option (Label × Nat) :=
  o.jump?.map fun (op, l) => (l, p + (opcodeBytes op).length)

/-- What the operation adds to a draft that ends at the position `p`. -/
def fragments (p : Nat) (o : Operation) : List Fragment :=
  match o with
  | write w => [.bytes w.bytes]
  | call target => [.bytes (Opcode.call.byte :: bigEndian 2 ((target : Int) - (p + 3)))]
  | _ => match o.jump? with
    | some (op, l) => [.bytes (opcodeBytes op), .operand l]
    | none => []

theorem fragments_jump {o : Operation} {op : Option Opcode} {l : Label}
    (h : o.jump? = some (op, l)) (p : Nat) :
    o.fragments p = [.bytes (opcodeBytes op), .operand l] := by
  cases o <;> simp_all [jump?, fragments]

/-- An operation that names a label writes its opcode, and then the operand. -/
theorem outcome_jump {o : Operation} {op : Option Opcode} {l : Label}
    (h : o.jump? = some (op, l)) (a : Assembly) :
    ∃ a₁, a₁.code.toList = a.code.toList ++ opcodeBytes op ∧ a₁.labels = a.labels ∧
      o.perform.outcome a = ((Emission.reference l).mapError .fault).outcome a₁ := by
  have hemit : ∀ op : Opcode, (a.emit op []).code.toList = a.code.toList ++ opcodeBytes (some op) := by
    intro op
    rw [Assembly.emit, Array.toList_appendList]
    simp [Opcode.encode, opcodeBytes]
  cases o with
  | reference m =>
    obtain ⟨rfl, rfl⟩ : none = op ∧ m = l := by simpa [jump?] using h
    exact ⟨a, by simp [opcodeBytes], rfl, rfl⟩
  | jump m =>
    obtain ⟨rfl, rfl⟩ : some .jump = op ∧ m = l := by simpa [jump?] using h
    exact ⟨_, hemit .jump, rfl, by rw [perform, Emission.jump, outcome_mapError, outcome_bind]; rfl⟩
  | jumpIfFalse b =>
    obtain ⟨rfl, rfl⟩ : some _ = op ∧ b.whenFalse = l := by simpa [jump?] using h
    refine ⟨_, hemit _, rfl, ?_⟩
    rw [perform, Emission.jumpIfFalse, outcome_mapError, outcome_bind]
    rfl
  | jumpIfTrue b =>
    obtain ⟨rfl, rfl⟩ : some _ = op ∧ b.whenTrue = l := by simpa [jump?] using h
    refine ⟨_, hemit _, rfl, ?_⟩
    rw [perform, Emission.jumpIfTrue, outcome_mapError, outcome_bind]
    rfl
  | _ => simp [jump?] at h

end Operation

namespace Drafts

open Operation

variable {a a' : Assembly} {fs : List Fragment} {o : Operation} {u : Unit}

theorem reference {l : Label} (h : Drafts a fs) (hs : Succeeds (Emission.reference l) a u a') :
    Drafts a' (fs ++ [.operand l]) ∧ a'.address? = a.address? := by
  rcases succeeds_reference.1 hs with ⟨A, hl, hreach, rfl⟩ | ⟨ps, hl, rfl⟩
  · exact ⟨h.resolved hl hreach, rfl⟩
  · exact ⟨h.waiting hl, Assembly.address?_setLabel_pending hl _⟩

/-- What an operation does to the addresses of the labels, and what has to hold where it succeeds. -/
structure Performs (o : Operation) (a a' : Assembly) : Prop where
  address : ∀ l, a'.address? l = if o = .define l then some a.here else a.address? l
  fresh : ∀ l, o = .define l → a.address? l = none
  call : ∀ target : Nat, o = .call target → InReach ((target : Int) - (a.here + 3))

/-- An operation that succeeds adds its fragments to the draft. -/
theorem perform (h : Drafts a fs) (hs : Succeeds o.perform a u a') :
    Drafts a' (fs ++ o.fragments a.here) ∧ Performs o a a' := by
  rcases hjump : o.jump? with _ | ⟨op, l⟩
  · cases o with
    | write w =>
      have hs := succeeds_mapError.1 hs
      obtain ⟨hcode, hlabels⟩ := w.perform_eq a
      rw [hs] at hcode hlabels
      have haddress : a'.address? = a.address? := Assembly.address?_congr hlabels
      exact ⟨h.append hcode hlabels, by simp [haddress], by simp, by simp⟩
    | newLabel =>
      obtain rfl : a' = a.newLabel.2 := (Prod.mk.inj hs).2.symm
      rw [show fragments a.here .newLabel = [] from rfl, List.append_nil]
      exact ⟨h.newLabel, by simp [a.address?_newLabel], by simp, by simp⟩
    | call target =>
      obtain ⟨hreach, rfl⟩ := succeeds_call.1 (succeeds_mapError.1 hs)
      refine ⟨h.append ?_ rfl, fun _ => rfl, by simp, ?_⟩
      · simp [Assembly.append, Assembly.emit, Opcode.encode]
      · rintro _ ⟨⟩
        exact hreach
    | define l =>
      have hs := succeeds_mapError.1 hs
      obtain ⟨ps, -, hl, -⟩ := succeeds_define.1 hs
      obtain ⟨hdrafts, haddress⟩ := h.define hs
      rw [show fragments a.here (.define l) = [] from rfl, List.append_nil]
      refine ⟨hdrafts, fun m => ?_, ?_, by simp⟩
      · simp only [haddress, Operation.define.injEq, eq_comm (a := m)]
      · rintro _ ⟨⟩
        simp [Assembly.address?, hl]
    | _ => simp [jump?] at hjump
  · obtain ⟨a₁, hcode, hlabels, houtcome⟩ := outcome_jump hjump a
    have hs : Succeeds (Emission.reference l) a₁ u a' :=
      (succeeds_mapError (f := Failure.fault)).1 (houtcome.symm.trans hs)
    have haddress₁ : a₁.address? = a.address? := Assembly.address?_congr hlabels
    obtain ⟨hdrafts, haddress⟩ := (h.append hcode hlabels).reference hs
    rw [List.append_assoc] at hdrafts
    rw [fragments_jump hjump]
    refine ⟨hdrafts, fun m => ?_, ?_, ?_⟩
    · rw [haddress, haddress₁, if_neg (by rintro rfl; simp [jump?] at hjump)]
    · rintro _ rfl
      simp [jump?] at hjump
    · rintro _ rfl
      simp [jump?] at hjump

end Drafts

/-! ### Jumps that are too far -/

instance (d : Int) : Decidable (InReach d) := inferInstanceAs (Decidable (_ ∧ _))

namespace Emission

variable {a : Assembly} {l : Label}

theorem outcome_distance (target position : Nat) (a : Assembly) :
    (distance target position).outcome a =
      if InReach ((target : Int) - (position + 2)) then
        (Except.ok ((target : Int) - (position + 2)), a)
      else (Except.error (.jumpOutOfRange position ((target : Int) - (position + 2))), a) := by
  split
  · next h => exact succeeds_distance.2 ⟨rfl, h, rfl⟩
  · next h =>
    have h : ¬(-32768 ≤ (target : Int) - (position + 2) ∧
        (target : Int) - (position + 2) ≤ 32767) := h
    simp only [distance, if_neg h, outcome_throw]

theorem outcome_labelState (l : Label) (a : Assembly) :
    (labelState l).outcome a =
      ((a.label? l).elim (Except.error (Fault.unknownLabel l)) Except.ok, a) := by
  have hget : (get : Emission Fault Assembly).outcome a = (.ok a, a) := rfl
  rcases hl : a.label? l with _ | st
  · simp only [labelState, outcome_bind, hget, hl, outcome_throw, Option.elim]
  · exact succeeds_labelState.2 ⟨hl, rfl⟩

/-- A jump to a label that is too far away writes no operand. -/
theorem outcome_reference_far {A : Nat} (hl : a.label? l = some (.resolved A))
    (hfar : ¬InReach ((A : Int) - (a.here + 2))) :
    (reference l).outcome a = (.error (.jumpOutOfRange a.here ((A : Int) - (a.here + 2))), a) := by
  simp only [reference, outcome_bind, outcome_here, outcome_labelState, hl, Option.elim,
    outcome_distance, if_neg hfar]

theorem outcome_reference_unknown (hl : a.label? l = none) :
    (reference l).outcome a = (.error (Fault.unknownLabel l), a) := by
  simp only [reference, outcome_bind, outcome_here, outcome_labelState, hl, Option.elim]

theorem outcome_call_far {target : Nat} (hfar : ¬InReach ((target : Int) - (a.here + 3))) :
    (call target).outcome a = (.error (.jumpOutOfRange (a.here + 1)
      ((target : Int) - (a.here + 3))), a.emit .call []) := by
  have hhere : (a.emit .call []).here = a.here + 1 := by
    simp [Assembly.emit, Assembly.here, Opcode.encode]
  have hd : (target : Int) - ((a.here + 1 : Nat) + 2) = target - (a.here + 3) := by omega
  simp only [call, outcome_bind, outcome_emit, outcome_here, hhere, outcome_distance, hd,
    if_neg hfar]

/-- Patching operands that are in the code ends well if all of them can hold their distances, and at a
jump that is too far if not. The labels stay as they are. -/
theorem outcome_patches (target : Nat) : ∀ (ps : List Nat) (a : Assembly),
    (∀ p ∈ ps, p + 2 ≤ a.here) → ∃ code, code.size = a.code.size ∧
      if ∀ p ∈ ps, InReach ((target : Int) - (p + 2)) then
        (ps.forM fun p => do patch p (bigEndian 2 (← distance target p))).outcome a =
          (.ok (), { a with code })
      else ∃ position d,
        (ps.forM fun p => do patch p (bigEndian 2 (← distance target p))).outcome a =
          (.error (.jumpOutOfRange position d), { a with code })
  | [], a, _ => ⟨a.code, rfl, by rw [if_pos (by simp)]; rfl⟩
  | p :: ps, a, hps => by
    have hstep : ((p :: ps).forM fun p => do patch p (bigEndian 2 (← distance target p))).outcome a =
        ((do patch p (bigEndian 2 (← distance target p))) >>= fun _ =>
          ps.forM fun p => do patch p (bigEndian 2 (← distance target p))).outcome a := rfl
    simp only [hstep, outcome_bind, outcome_distance]
    by_cases hreach : InReach ((target : Int) - (p + 2))
    · have hpatch : (patch p (bigEndian 2 ((target : Int) - (p + 2)))).outcome a =
          (.ok (), { a with code :=
            Assembly.overwrite a.code p (bigEndian 2 ((target : Int) - (p + 2))) }) :=
        succeeds_patch.2 ⟨by simpa using hps p (by simp), rfl⟩
      have hsize := length_overwrite p (bigEndian 2 ((target : Int) - (p + 2))) a.code
      obtain ⟨code, hcode, houtcome⟩ := outcome_patches target ps
        { a with code := Assembly.overwrite a.code p (bigEndian 2 ((target : Int) - (p + 2))) }
        fun q hq => by
          have := hps q (by simp [hq])
          simpa [Assembly.here, hsize] using this
      refine ⟨code, hcode.trans hsize, ?_⟩
      simp only [List.forall_mem_cons, hreach, true_and, ↓reduceIte, hpatch]
      exact houtcome
    · refine ⟨a.code, rfl, ?_⟩
      rw [if_neg (by simp [hreach])]
      exact ⟨p, (target : Int) - (p + 2), by rw [if_neg hreach]⟩

/-- Defining a label forgets the jumps that wait for it before it patches them, so that none of them
waits any more where one of them is too far. -/
theorem outcome_define {ps : List Nat} (hl : a.label? l = some (.pending ps))
    (hps : ∀ p ∈ ps, p + 2 ≤ a.here) : ∃ code, code.size = a.code.size ∧
      if ∀ p ∈ ps, InReach ((a.here : Int) - (p + 2)) then
        (define l).outcome a = (.ok (), { a.setLabel l (.resolved a.here) with code })
      else ∃ position d, (define l).outcome a =
        (.error (.jumpOutOfRange position d), { a.setLabel l (.pending []) with code }) := by
  obtain ⟨code, hsize, houtcome⟩ := outcome_patches a.here ps
    (a.setLabel l (.pending [])) hps
  have hopen : (modify (·.setLabel l (.pending [])) : Emission Fault Unit).outcome a =
      (.ok (), a.setLabel l (.pending [])) := rfl
  refine ⟨code, hsize, ?_⟩
  simp only [define, outcome_bind, outcome_here, outcome_labelState, hl, Option.elim, hopen]
  split at houtcome
  · next hreach =>
    rw [if_pos hreach]
    simp only [houtcome]
    show (Except.ok (), _) = _
    simp [Assembly.setLabel]
  · next hreach =>
    obtain ⟨position, d, houtcome⟩ := houtcome
    rw [if_neg hreach]
    exact ⟨position, d, by simp only [houtcome]⟩

theorem outcome_define_twice {A : Nat} (hl : a.label? l = some (.resolved A)) :
    (define l).outcome a = (.error (.labelDefinedTwice A a.here), a) := by
  simp only [define, outcome_bind, outcome_here, outcome_labelState, hl, Option.elim, outcome_throw]

theorem outcome_define_unknown (hl : a.label? l = none) :
    (define l).outcome a = (.error (.unknownLabel l), a) := by
  simp only [define, outcome_bind, outcome_here, outcome_labelState, hl, Option.elim]

end Emission

namespace Operation

variable {a : Assembly}

theorem not_overreaches_write (w : Writing) : ¬(write w).Overreaches a := by
  rintro ⟨position, d, h⟩
  rw [perform, outcome_mapError] at h
  rcases hr : (w.perform.outcome a).1 with p | u <;> simp [Except.mapError, hr] at h

theorem not_overreaches_newLabel : ¬newLabel.Overreaches a := by
  rintro ⟨position, d, h⟩
  cases h

theorem overreaches_call (target : Nat) :
    (call target).Overreaches a ↔ ¬InReach ((target : Int) - (a.here + 3)) := by
  rw [Overreaches, perform, outcome_mapError]
  by_cases hreach : InReach ((target : Int) - (a.here + 3))
  · have hcall : (Emission.call target).outcome a = (.ok (), _) := succeeds_call.2 ⟨hreach, rfl⟩
    simp [hcall, Except.mapError, hreach]
  · simp [outcome_call_far hreach, Except.mapError, hreach]

/-- A jump is too far only if its label is defined. -/
theorem overreaches_jump {o : Operation} {op : Option Opcode} {l : Label}
    (h : o.jump? = some (op, l)) :
    o.Overreaches a ↔ ∃ A, a.address? l = some A ∧
      ¬InReach ((A : Int) - ((a.here + (opcodeBytes op).length : Nat) + 2)) := by
  obtain ⟨a₁, hcode, hlabels, houtcome⟩ := outcome_jump h a
  have hhere : a₁.here = a.here + (opcodeBytes op).length := by
    simp [Assembly.here, ← Array.length_toList, hcode]
  have hl : a.label? l = a₁.label? l := by rw [Assembly.label?, ← hlabels, Assembly.label?]
  rw [Overreaches, houtcome, outcome_mapError, Assembly.address?, hl, ← hhere]
  rcases hst : a₁.label? l with _ | ps | A
  · simp [outcome_reference_unknown hst, Except.mapError]
  · have hreference : (Emission.reference l).outcome a₁ = (.ok (), _) :=
      succeeds_reference.2 (.inr ⟨ps, hst, rfl⟩)
    simp [hreference, Except.mapError]
  · by_cases hreach : InReach ((A : Int) - (a₁.here + 2))
    · have hreference : (Emission.reference l).outcome a₁ = (.ok (), _) :=
        succeeds_reference.2 (.inl ⟨A, hst, hreach, rfl⟩)
      simp [hreference, Except.mapError, hreach]
    · simp [outcome_reference_far hst hreach, Except.mapError, hreach]

/-- Defining a label is too far only for the jumps that wait for it. -/
theorem overreaches_define {l : Label} (hps : ∀ ps, a.label? l = some (.pending ps) →
    ∀ p ∈ ps, p + 2 ≤ a.here) :
    (define l).Overreaches a ↔ ∃ ps, a.label? l = some (.pending ps) ∧
      ∃ p ∈ ps, ¬InReach ((a.here : Int) - (p + 2)) := by
  rw [Overreaches, perform, outcome_mapError]
  rcases hl : a.label? l with _ | ps | A
  · simp [outcome_define_unknown hl, Except.mapError]
  · obtain ⟨code, -, houtcome⟩ := outcome_define hl (hps ps hl)
    split at houtcome
    · next hreach => simpa [houtcome, Except.mapError] using hreach
    · next hreach =>
      obtain ⟨position, d, houtcome⟩ := houtcome
      simpa [houtcome, Except.mapError] using hreach
  · simp [outcome_define_twice hl, Except.mapError]

end Operation

end MicroJava
