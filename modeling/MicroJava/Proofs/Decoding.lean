import Mathlib.Order.Bounds.Defs
import Mathlib.Tactic.Ring
import MicroJava.Proofs.Listing

/-!
# Decoding

Code and the instructions in it are two forms of one thing: every list of instructions whose operands
fit their fields is read back from its bytes, with each instruction behind the one before, and the
instructions that are read have the bytes that they were read from. Every code begins with whole
instructions, and it cannot be read exactly if something else follows them (`Instruction.exists_split`):
that is where the error is found (`Instruction.decode_exact`).
-/

namespace MicroJava

/-! ### Bytes and numbers -/

theorem foldl_ofBigEndian (bytes : List UInt8) (n : Nat) :
    bytes.foldl (fun n b => 256 * n + b.toNat) n =
      n * byteSpan bytes.length + ofBigEndian bytes := by
  induction bytes generalizing n with
  | nil => simp [ofBigEndian, byteSpan]
  | cons b bytes ih =>
    rw [ofBigEndian, List.foldl_cons, List.foldl_cons, ih, ih (256 * 0 + b.toNat), List.length_cons,
      byteSpan]
    ring

theorem ofBigEndian_cons (b : UInt8) (bytes : List UInt8) :
    ofBigEndian (b :: bytes) = b.toNat * byteSpan bytes.length + ofBigEndian bytes := by
  rw [ofBigEndian, List.foldl_cons, foldl_ofBigEndian]
  simp

theorem ofBigEndian_lt (bytes : List UInt8) : ofBigEndian bytes < byteSpan bytes.length := by
  induction bytes with
  | nil => decide
  | cons b bytes ih =>
    have hb : b.toNat + 1 ≤ 256 := b.toNat_lt
    calc ofBigEndian (b :: bytes)
        = b.toNat * byteSpan bytes.length + ofBigEndian bytes := ofBigEndian_cons b bytes
      _ < (b.toNat + 1) * byteSpan bytes.length := by rw [Nat.succ_mul]; omega
      _ ≤ 256 * byteSpan bytes.length := Nat.mul_le_mul_right _ hb

/-- Only the low bytes of a number are written. -/
theorem bigEndian_congr {width : Nat} {v v' : Int} (h : v % byteSpan width = v' % byteSpan width) :
    bigEndian width v = bigEndian width v' := by
  induction width with
  | zero => rfl
  | succ width ih =>
    have hpos : (0 : Int) < byteSpan width := Int.natCast_pos.2 (byteSpan_pos width)
    have hfront : ∀ v : Int, v % byteSpan (width + 1) / byteSpan width = v / byteSpan width % 256 := by
      intro v
      rw [emod_byteSpan_succ, Int.add_comm, Int.add_mul_ediv_left _ _ (Int.ne_of_gt hpos),
        Int.ediv_eq_zero_of_lt (Int.emod_nonneg _ (Int.ne_of_gt hpos)) (Int.emod_lt_of_pos _ hpos),
        Int.zero_add]
    have hback : ∀ v : Int, v % byteSpan (width + 1) % byteSpan width = v % byteSpan width := by
      intro v
      rw [emod_byteSpan_succ, Int.add_comm, Int.add_mul_emod_self_left, Int.emod_emod]
    rw [bigEndian, bigEndian, ← hfront v, ← hfront v', h, ih (by rw [← hback v, ← hback v', h])]

theorem bigEndian_ofBigEndian (bytes : List UInt8) :
    bigEndian bytes.length (ofBigEndian bytes) = bytes := by
  induction bytes with
  | nil => rfl
  | cons b bytes ih =>
    have hlt := ofBigEndian_lt bytes
    have hpos := byteSpan_pos bytes.length
    have hfront : (ofBigEndian (b :: bytes) : Int) / byteSpan bytes.length % 256 = b.toNat := by
      rw [ofBigEndian_cons]
      norm_cast
      rw [Nat.add_comm, Nat.add_mul_div_right _ _ hpos, Nat.div_eq_of_lt hlt, Nat.zero_add,
        Nat.mod_eq_of_lt b.toNat_lt]
    have hback : (ofBigEndian (b :: bytes) : Int) % byteSpan bytes.length =
        ofBigEndian bytes % byteSpan bytes.length := by
      rw [ofBigEndian_cons]
      norm_cast
      rw [Nat.add_comm, Nat.add_mul_mod_self_right]
    rw [List.length_cons, bigEndian, hfront, bigEndian_congr hback, ih, Int.toNat_natCast,
      UInt8.ofNat_toNat]

namespace Field

variable {f : Field} {bytes : List UInt8}

theorem encode_decode (h : bytes.length = f.width) : f.encode (f.decode bytes) = bytes := by
  have hspan : bigEndian f.width (ofBigEndian bytes) = bytes := by
    rw [← h, bigEndian_ofBigEndian]
  rw [encode, decode]
  split
  · rw [← hspan]
    refine bigEndian_congr ?_
    rw [Int.bmod_emod, hspan]
  · exact hspan

theorem holds_decode (h : bytes.length = f.width) : f.Holds (f.decode bytes) := by
  have hlt : ofBigEndian bytes < byteSpan f.width := h ▸ ofBigEndian_lt bytes
  have hpos := byteSpan_pos f.width
  rw [Holds, decode]
  split
  · have hle := Int.le_bmod (x := ofBigEndian bytes) hpos
    have hge := Int.bmod_lt (x := ofBigEndian bytes) hpos
    omega
  · omega

end Field

namespace Instruction

/-! ### Whole instructions -/

/-- The operands are as many as the opcode takes, and each is in the range of its field. -/
def Fits (i : Instruction) : Prop := List.Forall₂ Field.Holds i.opcode.fields i.operands

theorem size_eq (op : Opcode) : op.size = 1 + (op.fields.map (·.width)).sum := rfl

theorem Fits.length_encode {i : Instruction} (h : i.Fits) : i.encode.length = i.size :=
  Opcode.length_encode h.length_eq.symm

theorem length_flatMap_encode {is : List Instruction} (h : ∀ i ∈ is, i.Fits) :
    (is.flatMap encode).length = (is.map size).sum := by
  induction is with
  | nil => rfl
  | cons i is ih =>
    rw [List.forall_mem_cons] at h
    rw [List.flatMap_cons, List.length_append, h.1.length_encode, ih h.2, List.map_cons, List.sum_cons]

/-- The instructions one behind the other, from an offset on: each stands behind the bytes of those in
front of it. -/
def placed (o : Nat) (is : List Instruction) : List Instruction :=
  is.mapIdx fun n i => { i with offset := o + ((is.take n).map size).sum }

theorem placed_cons (o : Nat) (i : Instruction) (is : List Instruction) :
    placed o (i :: is) = { i with offset := o } :: placed (o + i.size) is := by
  simp [placed, List.mapIdx_cons, Nat.add_assoc]

theorem placed_append (o : Nat) (is js : List Instruction) :
    placed o (is ++ js) = placed o is ++ placed (o + (is.map size).sum) js := by
  induction is generalizing o with
  | nil => rfl
  | cons i is ih =>
    rw [List.cons_append, placed_cons, placed_cons, ih, List.map_cons, List.sum_cons, Nat.add_assoc,
      List.cons_append]

theorem le_offset_of_mem_placed {o : Nat} {is : List Instruction} {j : Instruction}
    (h : j ∈ placed o is) : o ≤ j.offset := by
  induction is generalizing o with
  | nil => contradiction
  | cons i is ih =>
    rw [placed_cons] at h
    rcases List.mem_cons.1 h with rfl | h
    · exact Nat.le_refl o
    · exact Nat.le_trans (Nat.le_add_right ..) (ih h)

theorem pairwise_placed (o : Nat) (is : List Instruction) :
    (placed o is).Pairwise fun i j => i.offset < j.offset := by
  induction is generalizing o with
  | nil => exact .nil
  | cons i is ih =>
    rw [placed_cons]
    refine .cons (fun j hj => ?_) (ih _)
    exact Nat.lt_of_lt_of_le (Nat.lt_add_of_pos_right i.opcode.size_pos) (le_offset_of_mem_placed hj)

theorem flatMap_encode_placed (o : Nat) (is : List Instruction) :
    (placed o is).flatMap encode = is.flatMap encode := by
  induction is generalizing o with
  | nil => rfl
  | cons i is ih => rw [placed_cons, List.flatMap_cons, List.flatMap_cons, ih]; rfl

theorem decodeFrom_flatMap_encode {is : List Instruction} (h : ∀ i ∈ is, i.Fits) (o : Nat)
    (found : List Instruction) (rest : List UInt8) :
    decodeFrom o found (is.flatMap encode ++ rest) =
      decodeFrom (o + (is.map size).sum) ((placed o is).reverse ++ found) rest := by
  induction is generalizing o found with
  | nil => rfl
  | cons i is ih =>
    rw [List.forall_mem_cons] at h
    rw [List.flatMap_cons, List.append_assoc, encode, decodeFrom_encode h.1.length_eq.symm,
      zipWith_decode_encode h.1, ih h.2, placed_cons]
    simp [size, Nat.add_assoc]

/-! ### What is no instruction -/

/-- The code does not begin with a whole instruction, for the reason given. -/
inductive Stuck : List UInt8 → (Nat → DecodeError) → Prop
  | unknown {b : UInt8} {code : List UInt8} (h : Opcode.ofByte? b = none) :
    Stuck (b :: code) (.unknownOpcode · b)
  | truncated {b : UInt8} {code : List UInt8} {op : Opcode} (h : Opcode.ofByte? b = some op)
    (hlength : (b :: code).length < op.size) : Stuck (b :: code) (.truncated · op)

theorem readFields?_eq_none {fs : List Field} {code : List UInt8}
    (h : code.length < (fs.map (·.width)).sum) : readFields? fs code = none := by
  induction fs generalizing code with
  | nil => exact absurd h (Nat.not_lt_zero _)
  | cons f fs ih =>
    rw [List.map_cons, List.sum_cons] at h
    simp only [readFields?, List.length_take]
    split
    · rfl
    · rw [ih (by rw [List.length_drop]; omega), Option.map_none]

theorem readFields?_eq_some {fs : List Field} {code : List UInt8}
    (h : (fs.map (·.width)).sum ≤ code.length) :
    ∃ vs, readFields? fs code = some vs ∧ List.Forall₂ Field.Holds fs vs ∧
      (List.zipWith Field.encode fs vs).flatten = code.take (fs.map (·.width)).sum := by
  induction fs generalizing code with
  | nil => exact ⟨[], rfl, .nil, rfl⟩
  | cons f fs ih =>
    rw [List.map_cons, List.sum_cons] at h
    have hle : (fs.map (·.width)).sum ≤ (code.drop f.width).length := by
      rw [List.length_drop]
      omega
    obtain ⟨vs, hread, hholds, hcode⟩ := ih hle
    have hlength : (code.take f.width).length = f.width := by
      rw [List.length_take]
      omega
    refine ⟨f.decode (code.take f.width) :: vs, ?_, .cons (Field.holds_decode hlength) hholds, ?_⟩
    · simp [readFields?, hlength, hread]
    · rw [List.zipWith_cons_cons, List.flatten_cons, hcode, Field.encode_decode hlength,
        List.map_cons, List.sum_cons, List.take_add]

/-- Code begins with whole instructions, and what follows them, if anything, does not. -/
theorem exists_split : ∀ code : List UInt8, ∃ (is : List Instruction) (rest : List UInt8),
    code = is.flatMap encode ++ rest ∧ (∀ i ∈ is, i.Fits) ∧ (rest = [] ∨ ∃ e, Stuck rest e)
  | [] => ⟨[], [], rfl, by simp, .inl rfl⟩
  | b :: code => by
    rcases hop : Opcode.ofByte? b with _ | op
    · exact ⟨[], b :: code, rfl, by simp, .inr ⟨_, .unknown hop⟩⟩
    by_cases hlength : (b :: code).length < op.size
    · exact ⟨[], b :: code, rfl, by simp, .inr ⟨_, .truncated hop hlength⟩⟩
    rw [List.length_cons, size_eq] at hlength
    have hle : (op.fields.map (·.width)).sum ≤ code.length := by omega
    obtain ⟨operands, -, hholds, hcode⟩ := readFields?_eq_some hle
    obtain ⟨is, rest, hsplit, hfits, hrest⟩ := exists_split (code.drop (op.fields.map (·.width)).sum)
    have hencode : encode ⟨0, op, operands⟩ = b :: code.take (op.fields.map (·.width)).sum := by
      rw [encode, Opcode.encode, hcode, Opcode.byte_of_ofByte? hop]
    refine ⟨⟨0, op, operands⟩ :: is, rest, ?_, List.forall_mem_cons.2 ⟨hholds, hfits⟩, hrest⟩
    rw [List.flatMap_cons, hencode, List.cons_append, List.cons_append, List.append_assoc, ← hsplit,
      List.take_append_drop]
  termination_by code => code.length
  decreasing_by simp only [List.length_cons, List.length_drop]; omega

theorem Stuck.decodeFrom {code : List UInt8} {e : Nat → DecodeError} (h : Stuck code e) (o : Nat)
    (found : List Instruction) : decodeFrom o found code = .error (e o) := by
  cases h with
  | unknown h => rw [Instruction.decodeFrom, h]
  | @truncated b code op h hlength =>
    rw [List.length_cons, size_eq] at hlength
    have hlt : code.length < (op.fields.map (·.width)).sum := by omega
    have hread := readFields?_eq_none hlt
    rw [Instruction.decodeFrom]
    simp only [h, hread]

theorem Stuck.eq_unknownOpcode_iff {code : List UInt8} {e : Nat → DecodeError} (h : Stuck code e)
    (o : Nat) (b : UInt8) :
    e o = .unknownOpcode o b ↔ code[0]? = some b ∧ Opcode.ofByte? b = none := by
  cases h with
  | unknown hop =>
    refine ⟨fun heq => ?_, fun ⟨hb, _⟩ => by rw [Option.some.inj hb]⟩
    obtain rfl := (DecodeError.unknownOpcode.inj heq).2
    exact ⟨rfl, hop⟩
  | truncated hop _ =>
    refine ⟨fun heq => by contradiction, fun ⟨hb, hnone⟩ => ?_⟩
    rw [← Option.some.inj hb, hop] at hnone
    contradiction

theorem Stuck.eq_truncated_iff {code : List UInt8} {e : Nat → DecodeError} (h : Stuck code e)
    (o : Nat) (op : Opcode) :
    e o = .truncated o op ↔
      (∃ b, code[0]? = some b ∧ Opcode.ofByte? b = some op) ∧ code.length < op.size := by
  cases h with
  | unknown hop =>
    refine ⟨fun heq => by contradiction, fun ⟨⟨b, hb, hsome⟩, _⟩ => ?_⟩
    rw [← Option.some.inj hb, hop] at hsome
    contradiction
  | truncated hop hlength =>
    refine ⟨fun heq => ?_, fun ⟨⟨b, hb, hsome⟩, _⟩ => ?_⟩
    · obtain rfl := (DecodeError.truncated.inj heq).2
      exact ⟨⟨_, rfl, hop⟩, hlength⟩
    · rw [← Option.some.inj hb, hop] at hsome
      rw [Option.some.inj hsome]

/-- More than nothing of such code is no better. -/
theorem Stuck.take {code : List UInt8} {e : Nat → DecodeError} (h : Stuck code e) {n : Nat}
    (hn : 0 < n) : Stuck (code.take n) e := by
  obtain ⟨n, rfl⟩ := Nat.exists_eq_add_of_lt hn
  rw [Nat.zero_add]
  cases h with
  | unknown h => exact .unknown h
  | truncated h hlength =>
    rw [List.take_succ_cons]
    refine .truncated h (Nat.lt_of_le_of_lt ?_ hlength)
    simp only [List.length_cons, List.length_take]
    omega

/-! ### Reading code -/

/-- Instructions with fitting operands are read back from their bytes. -/
theorem decode_flatMap_encode {is : List Instruction} (h : ∀ i ∈ is, i.Fits) :
    decode (is.flatMap encode) = .ok (placed 0 is) := by
  have := decodeFrom_flatMap_encode h 0 [] []
  rw [List.append_nil, List.append_nil, decodeFrom, List.reverse_reverse] at this
  exact this

theorem decode_append_stuck {is : List Instruction} (h : ∀ i ∈ is, i.Fits) {rest : List UInt8}
    {e : Nat → DecodeError} (hrest : Stuck rest e) :
    decode (is.flatMap encode ++ rest) = .error (e (is.map size).sum) := by
  rw [decode, decodeFrom_flatMap_encode h, hrest.decodeFrom, Nat.zero_add]

/-- The bytes of the instructions that are read are those that they were read from. -/
theorem flatMap_encode_of_decode {code : List UInt8} {is : List Instruction}
    (h : decode code = .ok is) : is.flatMap encode = code := by
  obtain ⟨js, rest, rfl, hfits, rfl | ⟨e, hrest⟩⟩ := exists_split code
  · rw [List.append_nil, decode_flatMap_encode hfits] at h
    rw [← Except.ok.inj h, flatMap_encode_placed, List.append_nil]
  · rw [decode_append_stuck hfits hrest] at h
    contradiction

/-- The instructions that are read stand one behind the other. -/
theorem pairwise_of_decode {code : List UInt8} {is : List Instruction} (h : decode code = .ok is) :
    is.Pairwise fun i j => i.offset < j.offset := by
  obtain ⟨js, rest, rfl, hfits, rfl | ⟨e, hrest⟩⟩ := exists_split code
  · rw [List.append_nil, decode_flatMap_encode hfits] at h
    obtain rfl := Except.ok.inj h
    exact pairwise_placed 0 js
  · rw [decode_append_stuck hfits hrest] at h
    contradiction

end Instruction

/-- Where the code cannot be read. -/
def DecodeError.offset : DecodeError → Nat
  | unknownOpcode offset _ => offset
  | truncated offset _ => offset

namespace Instruction

/-- If code cannot be read, whole instructions are followed by something else. -/
theorem exists_stuck_of_decode {code : List UInt8} {e : DecodeError} (h : decode code = .error e) :
    ∃ (is : List Instruction) (rest : List UInt8) (e' : Nat → DecodeError),
      code = is.flatMap encode ++ rest ∧ (∀ i ∈ is, i.Fits) ∧ Stuck rest e' ∧
        e = e' (is.flatMap encode).length := by
  obtain ⟨is, rest, rfl, hfits, rfl | ⟨e', hrest⟩⟩ := exists_split code
  · rw [List.append_nil, decode_flatMap_encode hfits] at h
    contradiction
  · rw [decode_append_stuck hfits hrest, ← length_flatMap_encode hfits] at h
    exact ⟨is, rest, e', rfl, hfits, hrest, (Except.error.inj h).symm⟩

theorem Stuck.offset {code : List UInt8} {e : Nat → DecodeError} (h : Stuck code e) (o : Nat) :
    (e o).offset = o := by
  cases h <;> rfl

/-- The whole instructions in front of what is no instruction are the longest part that can be
read. -/
theorem isGreatest_of_stuck {is : List Instruction} (hfits : ∀ i ∈ is, i.Fits) {rest : List UInt8}
    {e : Nat → DecodeError} (hrest : Stuck rest e) :
    IsGreatest {n | n ≤ (is.flatMap encode ++ rest).length ∧
      ∃ js, decode ((is.flatMap encode ++ rest).take n) = .ok js} (is.flatMap encode).length := by
  refine ⟨⟨?_, placed 0 is, ?_⟩, ?_⟩
  · rw [List.length_append]
    omega
  · rw [List.take_left, decode_flatMap_encode hfits]
  · -- a longer part would end with something of `rest`, where reading gets stuck as well
    rintro n ⟨-, js, hjs⟩
    refine Nat.le_of_not_lt fun hn => ?_
    rw [List.take_append, List.take_of_length_le (Nat.le_of_lt hn),
      decode_append_stuck hfits (hrest.take (Nat.sub_pos_of_lt hn))] at hjs
    contradiction

/-- Instructions are read back from their bytes as they were, each behind the ones in front of it; the
instructions that are read from code have its bytes; and if code cannot be read, then the error is
behind the longest part that can be read, and says whether the byte there is no opcode or the one of an
instruction that runs past the end. -/
theorem decode_exact :
    (∀ is : List Instruction, (∀ i ∈ is, i.Fits) → decode (is.flatMap encode) =
      .ok (is.mapIdx fun n i => { i with offset := ((is.take n).map size).sum })) ∧
    (∀ code is, decode code = .ok is → is.flatMap encode = code) ∧
    ∀ code e, decode code = .error e →
      IsGreatest {n | n ≤ code.length ∧ ∃ is, decode (code.take n) = .ok is} e.offset ∧
      (∀ b, e = .unknownOpcode e.offset b ↔
        code[e.offset]? = some b ∧ Opcode.ofByte? b = none) ∧
      ∀ op, e = .truncated e.offset op ↔
        (∃ b, code[e.offset]? = some b ∧ Opcode.ofByte? b = some op) ∧
          code.length < e.offset + op.size := by
  refine ⟨fun is h => ?_, fun code is => flatMap_encode_of_decode, fun code e h => ?_⟩
  · rw [decode_flatMap_encode h, placed]
    simp only [Nat.zero_add]
  · obtain ⟨is, rest, e', rfl, hfits, hrest, rfl⟩ := exists_stuck_of_decode h
    rw [hrest.offset]
    refine ⟨isGreatest_of_stuck hfits hrest, fun b => ?_, fun op => ?_⟩
    · rw [hrest.eq_unknownOpcode_iff, List.getElem?_append_right (Nat.le_refl _), Nat.sub_self]
    · rw [hrest.eq_truncated_iff, List.getElem?_append_right (Nat.le_refl _), Nat.sub_self,
        List.length_append, Nat.add_lt_add_iff_left]

/-- Instructions with all kinds of operands. -/
def mixed : List Instruction :=
  [⟨0, .enter, [0, 200]⟩, ⟨0, .const, [-1000]⟩, ⟨0, .inc, [200, -1]⟩, ⟨0, .load, [40000]⟩,
   ⟨0, .jump, [-4]⟩]

theorem decode_exact_mixed :
    decode (mixed.flatMap encode) =
      .ok [⟨0, .enter, [0, 200]⟩, ⟨3, .const, [-1000]⟩, ⟨8, .inc, [200, -1]⟩, ⟨11, .load, [40000]⟩,
        ⟨14, .jump, [-4]⟩] ∧
    [⟨0, .nop, []⟩, ⟨1, .ret, []⟩].flatMap encode = [58, 50] ∧
    IsGreatest {n | n ≤ 3 ∧ ∃ is, decode (([58, 22, 0] : List UInt8).take n) = .ok is} 1 := by
  obtain ⟨hread, hwrite, herror⟩ := decode_exact
  have hfits : ∀ i ∈ mixed, i.Fits := by
    unfold Fits
    decide
  have hshort : decode [58, 50] = .ok [⟨0, .nop, []⟩, ⟨1, .ret, []⟩] :=
    @decode_flatMap_encode [⟨0, .nop, []⟩, ⟨0, .ret, []⟩] (by simp [Fits, Opcode.fields])
  have hstuck : decode [58, 22, 0] = .error (.truncated 1 .const) :=
    @decode_append_stuck [⟨0, .nop, []⟩] (by simp [Fits, Opcode.fields]) _ _
      (@Stuck.truncated _ _ .const rfl (by decide))
  exact ⟨hread mixed hfits, hwrite _ _ hshort, (herror _ _ hstuck).1⟩

end Instruction

end MicroJava
