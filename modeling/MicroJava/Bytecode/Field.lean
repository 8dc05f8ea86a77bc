/-!
# Operand fields

An operand is an integer in a field of one, two or four bytes, the most significant first. Writing
keeps the low bits of the value, and reading takes them as a signed or an unsigned number, so a
value comes back whenever the field can hold it (`decode_encode`).
-/

namespace MicroJava

/-- How many values `width` bytes tell apart. -/
def byteSpan : (width : Nat) → Nat
  | 0 => 1
  | width + 1 => 256 * byteSpan width

theorem byteSpan_pos (width : Nat) : 0 < byteSpan width := by
  induction width with
  | zero => decide
  | succ width ih =>
    rw [byteSpan]
    omega

/-- The low `width` bytes of an integer, the most significant first. -/
def bigEndian : (width : Nat) → Int → List UInt8
  | 0, _ => []
  | width + 1, v => .ofNat (v / byteSpan width % 256).toNat :: bigEndian width v

/-- The number that bytes stand for, the most significant first. -/
def ofBigEndian (bytes : List UInt8) : Nat := bytes.foldl (fun n b => 256 * n + b.toNat) 0

@[simp] theorem length_bigEndian (width : Nat) (v : Int) : (bigEndian width v).length = width := by
  induction width with
  | zero => rfl
  | succ width ih => simp [bigEndian, ih]

/-- The byte in front counts multiples of what the bytes behind it tell apart. -/
theorem emod_byteSpan_succ (width : Nat) (v : Int) :
    v % byteSpan (width + 1) =
      byteSpan width * (v / byteSpan width % 256) + v % byteSpan width := by
  have hpos : (0 : Int) ≤ byteSpan width := Int.natCast_nonneg _
  have hs : ((byteSpan (width + 1) : Nat) : Int) = byteSpan width * 256 := by
    rw [byteSpan, Int.natCast_mul, Int.mul_comm, Int.cast_ofNat_Int]
  rw [hs, Int.emod_def v (byteSpan width * 256), Int.emod_def v (byteSpan width),
    Int.emod_def (v / byteSpan width) 256, ← Int.ediv_ediv_of_nonneg hpos, Int.mul_sub,
    Int.mul_assoc]
  omega

theorem foldl_bigEndian (width : Nat) (v : Int) (n : Nat) :
    (((bigEndian width v).foldl (fun n b => 256 * n + b.toNat) n : Nat) : Int) =
      n * byteSpan width + v % byteSpan width := by
  induction width generalizing n with
  | zero => simp [bigEndian, byteSpan]
  | succ width ih =>
    have hm : 0 ≤ v / byteSpan width % 256 := Int.emod_nonneg _ (by decide)
    have hlt : v / byteSpan width % 256 < 256 := Int.emod_lt_of_pos _ (by decide)
    have hb : ((UInt8.ofNat (v / byteSpan width % 256).toNat).toNat : Int) =
        v / byteSpan width % 256 := by
      rw [UInt8.toNat_ofNat', Nat.mod_eq_of_lt (by omega)]
      omega
    simp only [bigEndian, List.foldl_cons]
    rw [ih, emod_byteSpan_succ, byteSpan, Int.natCast_add, hb, Int.natCast_mul, Int.natCast_mul,
      Int.add_mul, Int.mul_comm (v / _ % 256), ← Int.mul_assoc, Int.mul_comm (n : Int),
      Int.add_assoc]

theorem ofBigEndian_bigEndian (width : Nat) (v : Int) :
    (ofBigEndian (bigEndian width v) : Int) = v % byteSpan width := by
  simpa [ofBigEndian] using foldl_bigEndian width v 0

/-- The place of an operand: its width in bytes, and whether it is read as a signed number. -/
structure Field where
  width : Nat
  signed : Bool := false
  deriving DecidableEq, Repr, Inhabited

namespace Field

def byte : Field := ⟨1, false⟩
def signedByte : Field := ⟨1, true⟩
def short : Field := ⟨2, false⟩
def signedShort : Field := ⟨2, true⟩
def word : Field := ⟨4, true⟩

/-- The values that the field can hold. -/
def Holds (f : Field) (v : Int) : Prop :=
  if f.signed then -(byteSpan f.width : Int) ≤ 2 * v ∧ 2 * v < byteSpan f.width
  else 0 ≤ v ∧ v < byteSpan f.width

instance (f : Field) (v : Int) : Decidable (f.Holds v) := by
  unfold Holds
  infer_instance

def encode (f : Field) (v : Int) : List UInt8 := bigEndian f.width v

def decode (f : Field) (bytes : List UInt8) : Int :=
  if f.signed then Int.bmod (ofBigEndian bytes) (byteSpan f.width) else ofBigEndian bytes

@[simp] theorem length_encode (f : Field) (v : Int) : (f.encode v).length = f.width :=
  length_bigEndian f.width v

theorem decode_encode {f : Field} {v : Int} (h : f.Holds v) : f.decode (f.encode v) = v := by
  unfold Holds at h
  unfold decode encode
  rw [ofBigEndian_bigEndian]
  split at h
  · next hs =>
    rw [if_pos hs]
    rw [Int.emod_bmod]
    exact Int.bmod_eq_of_le_mul_two (by omega) (by omega)
  · next hs =>
    rw [if_neg hs]
    exact Int.emod_eq_of_lt h.1 h.2

end Field

end MicroJava
