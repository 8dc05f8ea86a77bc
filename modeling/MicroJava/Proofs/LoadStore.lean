import MicroJava.Proofs.Decoding
import MicroJava.Proofs.Spots

/-!
# Loading and storing, read back

Pushing a constant, loading a variable and storing into one each append one instruction
(`Emission.Adds`). What is read back does to the machine what was asked for, whether it is one of the
short instructions or has the value in its operand (`Emission.adds_exact`). A value that is stored in a
variable of the frame is what is loaded next just if both have the same slot
(`Order.returns_frame_iff`).
-/

namespace MicroJava

/-! ### One more instruction -/

namespace Instruction

/-- Code that can be read is read as before in front of one more instruction. -/
theorem decode_append_encode {code : List UInt8} {is : List Instruction} (h : decode code = .ok is)
    {i : Instruction} (hi : i.Fits) :
    decode (code ++ i.encode) = .ok (is ++ [{ i with offset := code.length }]) := by
  obtain ⟨js, rest, rfl, hfits, rfl | ⟨e, hrest⟩⟩ := exists_split code
  · rw [List.append_nil] at h ⊢
    rw [decode_flatMap_encode hfits] at h
    obtain rfl := Except.ok.inj h
    have hall : ∀ j ∈ js ++ [i], j.Fits :=
      List.forall_mem_append.2 ⟨hfits, List.forall_mem_singleton.2 hi⟩
    have hread := decode_flatMap_encode hall
    rw [List.flatMap_append, List.flatMap_singleton, placed_append, placed_cons] at hread
    rw [hread, length_flatMap_encode hfits, Nat.zero_add]
    rfl
  · rw [decode_append_stuck hfits hrest] at h
    contradiction

end Instruction

/-- The emission appends an instruction that is read back from its bytes, alone and behind the
instructions in front of it, and changes nothing else. -/
structure Emission.Adds {ε : Type} (e : Emission ε Unit) (o : Order) (a a' : Assembly) : Prop where
  succeeds : e.Succeeds a () a'
  code : a'.code.toList = a.code.toList ++ o.1.encode o.2
  alone : Instruction.decode (o.1.encode o.2) = .ok [⟨0, o.1, o.2⟩]
  behind : ∀ is, Instruction.decode a.code.toList = .ok is →
    Instruction.decode a'.code.toList = .ok (is ++ [⟨a.here, o.1, o.2⟩])
  labels : a'.labels = a.labels
  entry : a'.entry = a.entry
  dataSize : a'.dataSize = a.dataSize

namespace Emission

variable {ε : Type} {a : Assembly} {x : Operand}

theorem Adds.emit {o : Order} (ho : o.Fits) :
    (Emission.emit o.1 o.2 : Emission ε Unit).Adds o a (a.emit o.1 o.2) := by
  have hcode : (a.emit o.1 o.2).code.toList = a.code.toList ++ o.1.encode o.2 := by
    simp [Assembly.emit]
  refine ⟨succeeds_emit.2 rfl, hcode, ?_, fun is his => ?_, rfl, rfl, rfl⟩
  · have hone : ∀ i ∈ [(⟨0, o.1, o.2⟩ : Instruction)], i.Fits := List.forall_mem_singleton.2 ho.operands
    have hread := Instruction.decode_flatMap_encode hone
    rwa [List.flatMap_singleton] at hread
  · rw [hcode]
    exact Instruction.decode_append_encode (i := ⟨0, o.1, o.2⟩) his ho.operands

theorem Adds.constant (v : Int32) :
    (Emission.constant v : Emission ε Unit).Adds (constantCode v) a
      (a.emit (constantCode v).1 (constantCode v).2) :=
  .emit ((Computes.constant v).fits (by simp) _ (List.mem_singleton_self _))

theorem load_eq_emit (hx : x.isVariable) : load x = emit x.loader.1 x.loader.2 := by
  obtain ⟨x, T⟩ := x
  cases x with
  | constant v => contradiction
  | stack => contradiction
  | method id => contradiction
  | _ => rfl

theorem store_eq_emit (hx : x.isVariable) : store x = emit x.storer.1 x.storer.2 := by
  obtain ⟨x, T⟩ := x
  cases x with
  | constant v => contradiction
  | stack => contradiction
  | method id => contradiction
  | _ => rfl

theorem Adds.load (hx : x.Addressable) :
    (Emission.load x).Adds x.loader a (a.emit x.loader.1 x.loader.2) :=
  load_eq_emit hx.isVariable ▸ .emit hx.fits_loader

theorem Adds.store (hx : x.Addressable) :
    (Emission.store x).Adds x.storer a (a.emit x.storer.1 x.storer.2) :=
  store_eq_emit hx.isVariable ▸ .emit hx.fits_storer

/-- A constant has an instruction of its own, or is the operand. -/
theorem constantCode_cases (v : Int32) :
    constantCode v = (.const, [v.toInt]) ∨ (constantCode v).2 = [] := by
  unfold constantCode
  split_ifs <;> simp

theorem frameLoadCode_snd_eq_nil_iff (slot : Nat) : (frameLoadCode slot).2 = [] ↔ slot < 4 := by
  rcases slot with _ | _ | _ | _ | slot <;> simp [frameLoadCode]

theorem frameStoreCode_snd_eq_nil_iff (slot : Nat) : (frameStoreCode slot).2 = [] ↔ slot < 4 := by
  rcases slot with _ | _ | _ | _ | slot <;> simp [frameStoreCode]

end Emission

/-! ### Storing and loading again -/

/-- The first instruction pops the top of the stack, and the second one pushes the same value again,
wherever both slots are in the frame. -/
def Order.Returns (o o' : Order) (s s' : Nat) : Prop :=
  ∀ p : Process, p.stack ≠ [] → s < p.storage.locals.length → s' < p.storage.locals.length →
    ((do
      Action.execute ⟨0, o.1, o.2⟩
      Action.execute ⟨0, o'.1, o'.2⟩ : Action Unit) p).map (fun r => r.2.stack) = .ok p.stack

theorem Order.returns_frame_iff {s s' : Nat} {T T' : TypeId} :
    Returns (Operand.storer ⟨.frame s, T⟩) (Operand.loader ⟨.frame s', T'⟩) s s' ↔ s = s' := by
  unfold Returns
  rw [Operand.execute_storer rfl, Operand.execute_loader rfl]
  have hrun : ∀ place d S C σ, ((do
      let d ← Action.pop
      (← (Operand.spot ⟨.frame s, T⟩)).put d
      Action.push (← (← Operand.spot ⟨.frame s', T'⟩).get) : Action Unit) ⟨place, d :: S, C, σ⟩) =
        (do Action.push (← Action.want (σ.locals.set s d)[s']? .stuck) : Action Unit)
          ⟨place, S, C, { σ with locals := σ.locals.set s d }⟩ := fun _ _ _ _ _ => rfl
  constructor
  · -- a one that is stored in one slot of a frame of zeros is not what another slot has
    intro h
    by_contra hne
    have hlength : ∀ n ≤ s + s', n < (List.replicate (s + s' + 1) (Datum.number 0)).length := fun n hn => by
      rw [List.length_replicate]
      omega
    have hp := h ⟨0, [.number 1], [], ⟨.replicate (s + s' + 1) (.number 0), [], [], [], []⟩⟩ (by simp)
      (hlength s (by omega)) (hlength s' (by omega))
    simp only [bind_assoc] at hp
    rw [hrun, List.getElem?_set_ne hne, List.getElem?_replicate, if_pos (by omega)] at hp
    have htop : [Datum.number 0] = [Datum.number 1] := Except.ok.inj hp
    exact absurd htop (by decide)
  · rintro rfl ⟨place, _ | ⟨d, S⟩, C, σ⟩ hstack hs -
    · contradiction
    simp only [bind_assoc]
    rw [hrun, List.getElem?_set_self hs]
    rfl

/-! ### Every constant and every variable -/

/-- Pushing a constant, loading a variable with a slot of two bytes and storing into one each append one
instruction, which is read back as it is, behind whatever was there before. On the machine it pushes the
constant, or gets or puts the value of that variable. The first four slots of a frame have instructions
without an operand, and what is stored in one slot is what is loaded next exactly if that is the same
slot. -/
theorem Emission.adds_exact {ε : Type} :
    (∀ (v : Int32) (a : Assembly), ∃ o a', (constant v : Emission ε Unit).Adds o a a' ∧
      (o = (.const, [v.toInt]) ∨ o.2 = []) ∧
      ∀ place, Action.execute ⟨place, o.1, o.2⟩ = Action.push (.number v)) ∧
    (∀ (x : Operand) (a : Assembly), x.Addressable → ∃ o a', (load x).Adds o a a' ∧
      ∀ place, Action.execute ⟨place, o.1, o.2⟩ = (do Action.push (← (← x.spot).get))) ∧
    (∀ (x : Operand) (a : Assembly), x.Addressable → ∃ o a', (store x).Adds o a a' ∧
      ∀ place, Action.execute ⟨place, o.1, o.2⟩ = (do
        let d ← Action.pop
        (← x.spot).put d)) ∧
    ∀ (s s' : Nat) (T T' : TypeId) (a : Assembly), s < 65536 → s' < 65536 → ∃ o o' a₁ a₂,
      (store ⟨.frame s, T⟩).Adds o a a₁ ∧ (load ⟨.frame s', T'⟩).Adds o' a₁ a₂ ∧
      (o.1.frameSlot? o.2 = some (s : Int) ∧ (o.2 = [] ↔ s < 4)) ∧
      (o'.1.frameSlot? o'.2 = some (s' : Int) ∧ (o'.2 = [] ↔ s' < 4)) ∧
      (o.Returns o' s s' ↔ s = s') := by
  refine ⟨fun v a => ?_, fun x a hx => ?_, fun x a hx => ?_, fun s s' T T' a hs hs' => ?_⟩
  · exact ⟨_, _, .constant v, constantCode_cases v, fun _ => Action.execute_constantCode v⟩
  · exact ⟨_, _, .load hx, fun _ => Operand.execute_loader hx.isVariable⟩
  · exact ⟨_, _, .store hx, fun _ => Operand.execute_storer hx.isVariable⟩
  · have hx : (⟨.frame s, T⟩ : Operand).Addressable := hs
    have hx' : (⟨.frame s', T'⟩ : Operand).Addressable := hs'
    exact ⟨_, _, _, _, .store hx, .load hx', ⟨frameSlot?_frameStoreCode s, frameStoreCode_snd_eq_nil_iff s⟩,
      ⟨frameSlot?_frameLoadCode s', frameLoadCode_snd_eq_nil_iff s'⟩, Order.returns_frame_iff⟩

theorem Emission.adds_exact_slots :
    (∃ o a', (constant (-1000) : Emission Problem Unit).Adds o {} a' ∧
      (o = (.const, [-1000]) ∨ o.2 = [])) ∧
    (∃ o a', (load ⟨.element, .char⟩).Adds o {} a') ∧
    (∃ o a', (store ⟨.global 65535, .int⟩).Adds o {} a') ∧
    ∃ o o' a₁ a₂, (store ⟨.frame 2, .int⟩).Adds o {} a₁ ∧ (load ⟨.frame 300, .int⟩).Adds o' a₁ a₂ ∧
      ¬ o.Returns o' 2 300 := by
  obtain ⟨hconstant, hload, hstore, hframe⟩ := adds_exact (ε := Problem)
  obtain ⟨o₀, a₀, h₀, hcases, -⟩ := hconstant (-1000) {}
  obtain ⟨o₁, a₁, h₁, -⟩ := hload ⟨.element, .char⟩ {} trivial
  obtain ⟨o₂, a₂, h₂, -⟩ := hstore ⟨.global 65535, .int⟩ {} (show 65535 < 65536 by decide)
  obtain ⟨o, o', a, a', h, h', -, -, hiff⟩ := hframe 2 300 .int .int {} (by decide) (by decide)
  exact ⟨⟨o₀, a₀, h₀, hcases⟩, ⟨o₁, a₁, h₁⟩, ⟨o₂, a₂, h₂⟩, o, o', a, a', h, h',
    fun hreturns => absurd (hiff.1 hreturns) (by decide)⟩

end MicroJava
