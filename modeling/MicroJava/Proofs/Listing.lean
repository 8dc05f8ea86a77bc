import Mathlib.Algebra.GroupWithZero.Nat
import Mathlib.Data.List.Forall2
import MicroJava.Assembly.Basic
import MicroJava.Bytecode.Instruction

/-!
# Listings

A listing is code before its jumps are known: a jump names its label and a call its target. With
operands for the jumps a listing becomes bytes (`encodeFrom`), and these are read back as the
instructions of the listing (`decode_encodeFrom`). Overwriting the operand of one jump is the same as
encoding the listing with another operand there (`overwrite_encodeFrom`).
-/

namespace MicroJava

/-- An instruction of a listing. -/
inductive Item where
  | plain (op : Opcode) (operands : List Int)
  /-- A jump to a label. -/
  | jump (op : Opcode) (l : Label)
  /-- A call of the method at an address. -/
  | call (target : Nat)
  deriving DecidableEq, Inhabited

theorem Opcode.size_pos (op : Opcode) : 0 < op.size := by
  unfold Opcode.size
  omega

theorem Opcode.fields_of_isRelative {op : Opcode} (h : op.isRelative) :
    op.fields = [.signedShort] := by
  cases op <;> first | rfl | (simp [isRelative, isJump] at h)

theorem Opcode.isRelative_of_isJump {op : Opcode} (h : op.isJump) : op.isRelative := by
  simp [isRelative, h]

theorem Opcode.size_of_isRelative {op : Opcode} (h : op.isRelative) : op.size = 3 := by
  simp [Opcode.size, widths, fields_of_isRelative h, Field.signedShort]

/-- The operand of a jump is written behind its opcode. -/
theorem Opcode.encode_of_isRelative {op : Opcode} (h : op.isRelative) (v : Int) :
    op.encode [v] = op.encode [] ++ bigEndian 2 v := by
  simp [encode, fields_of_isRelative h, Field.encode, Field.signedShort]

theorem Opcode.length_flatten_encode :
    ∀ (fs : List Field) (operands : List Int), operands.length = fs.length →
      (List.zipWith Field.encode fs operands).flatten.length = (fs.map (·.width)).foldr (· + ·) 0
  | [], [], _ => rfl
  | [], _ :: _, h => by simp at h
  | _ :: _, [], h => by simp at h
  | f :: fs, v :: vs, h => by
    simp [length_flatten_encode fs vs (by simpa using h)]

theorem Opcode.length_encode {op : Opcode} {operands : List Int}
    (h : operands.length = op.fields.length) : (op.encode operands).length = op.size := by
  simp only [encode, List.length_cons, length_flatten_encode _ _ h, size, widths]
  omega

namespace Item

def opcode : Item → Opcode
  | plain op _ => op
  | jump op _ => op
  | call _ => .call

/-- The length of the instruction in bytes. -/
def size (i : Item) : Nat := i.opcode.size

/-- The item has an opcode of its kind, and as many operands as that wants. -/
def WellFormed : Item → Prop
  | plain op operands => op.isRelative = false ∧ operands.length = op.fields.length
  | jump op _ => op.isJump
  | call _ => True

/-- The operands of an item at the offset `o`, where `fill` gives the operand of a jump to a label
from the position of the operand. -/
def operandsAt (fill : Nat → Label → Int) (o : Nat) : Item → List Int
  | plain _ operands => operands
  | jump _ l => [fill (o + 1) l]
  | call target => [(target : Int) - (o + 3)]

/-- The bytes of an item at the offset `o`. -/
def encodeAt (fill : Nat → Label → Int) (o : Nat) (i : Item) : List UInt8 :=
  i.opcode.encode (i.operandsAt fill o)

/-- The item as it is read back from its bytes at the offset `o`. -/
def instructionAt (fill : Nat → Label → Int) (o : Nat) (i : Item) : Instruction where
  offset := o
  opcode := i.opcode
  operands := List.zipWith (fun f v => f.decode (f.encode v)) i.opcode.fields (i.operandsAt fill o)

variable {fill : Nat → Label → Int} {o : Nat} {i : Item}

theorem size_pos (i : Item) : 0 < i.size := i.opcode.size_pos

theorem isRelative_jump {op : Opcode} {l : Label} (h : (jump op l).WellFormed) :
    op.isRelative := Opcode.isRelative_of_isJump h

theorem length_operandsAt (h : i.WellFormed) :
    (i.operandsAt fill o).length = i.opcode.fields.length := by
  cases i with
  | plain op operands => exact h.2
  | jump op l =>
    simp [operandsAt, opcode, Opcode.fields_of_isRelative (isRelative_jump h)]
  | call target => rfl

theorem length_encodeAt (h : i.WellFormed) : (i.encodeAt fill o).length = i.size :=
  Opcode.length_encode (length_operandsAt h)

end Item

/-- The length of a listing in bytes. -/
def codeSize (is : List Item) : Nat := (is.map Item.size).sum

@[simp] theorem codeSize_nil : codeSize [] = 0 := rfl

@[simp] theorem codeSize_cons (i : Item) (is : List Item) :
    codeSize (i :: is) = i.size + codeSize is := by
  simp [codeSize]

@[simp] theorem codeSize_append (is js : List Item) :
    codeSize (is ++ js) = codeSize is + codeSize js := by
  simp [codeSize]

/-- No two items of a listing stand at one offset. -/
theorem prefix_unique {pre pre' : List Item} (h : codeSize pre = codeSize pre') :
    ∀ {post post' : List Item}, pre ++ post = pre' ++ post' → pre = pre' ∧ post = post' := by
  induction pre generalizing pre' with
  | nil =>
    intro post post' heq
    rcases pre' with _ | ⟨i, pre'⟩
    · exact ⟨rfl, heq⟩
    · have := i.size_pos
      simp only [codeSize_nil, codeSize_cons] at h
      omega
  | cons i pre ih =>
    intro post post' heq
    rcases pre' with _ | ⟨i', pre'⟩
    · have := i.size_pos
      simp only [codeSize_nil, codeSize_cons] at h
      omega
    · simp only [List.cons_append, List.cons.injEq] at heq
      obtain ⟨rfl, heq⟩ := heq
      simp only [codeSize_cons, Nat.add_left_cancel_iff] at h
      obtain ⟨rfl, rfl⟩ := ih h heq
      exact ⟨rfl, rfl⟩

/-- The bytes of a listing whose first item stands at the offset `o`. -/
def encodeFrom (fill : Nat → Label → Int) : Nat → List Item → List UInt8
  | _, [] => []
  | o, i :: is => i.encodeAt fill o ++ encodeFrom fill (o + i.size) is

/-- The listing as it is read back from its bytes. -/
def instructionsFrom (fill : Nat → Label → Int) : Nat → List Item → List Instruction
  | _, [] => []
  | o, i :: is => i.instructionAt fill o :: instructionsFrom fill (o + i.size) is

section Encoding

variable {fill fill' : Nat → Label → Int}

theorem encodeFrom_append (o : Nat) (is js : List Item) :
    encodeFrom fill o (is ++ js) = encodeFrom fill o is ++ encodeFrom fill (o + codeSize is) js := by
  induction is generalizing o with
  | nil => simp [encodeFrom]
  | cons i is ih => simp [encodeFrom, ih, Nat.add_assoc]

theorem instructionsFrom_append (o : Nat) (is js : List Item) :
    instructionsFrom fill o (is ++ js) =
      instructionsFrom fill o is ++ instructionsFrom fill (o + codeSize is) js := by
  induction is generalizing o with
  | nil => simp [instructionsFrom]
  | cons i is ih => simp [instructionsFrom, ih, Nat.add_assoc]

theorem length_encodeFrom {is : List Item} (h : ∀ i ∈ is, i.WellFormed) (o : Nat) :
    (encodeFrom fill o is).length = codeSize is := by
  induction is generalizing o with
  | nil => rfl
  | cons i is ih =>
    simp only [List.mem_cons, forall_eq_or_imp] at h
    simp [encodeFrom, Item.length_encodeAt h.1, ih h.2]

/-- The bytes depend on the operands of the jumps only. -/
theorem encodeFrom_congr {is : List Item} {o : Nat}
    (h : ∀ pre op l post, is = pre ++ .jump op l :: post →
      fill (o + codeSize pre + 1) l = fill' (o + codeSize pre + 1) l) :
    encodeFrom fill o is = encodeFrom fill' o is := by
  induction is generalizing o with
  | nil => rfl
  | cons i is ih =>
    have hi : i.encodeAt fill o = i.encodeAt fill' o := by
      cases i with
      | plain op operands => rfl
      | jump op l =>
        have := h [] op l is rfl
        simp only [codeSize_nil, Nat.add_zero] at this
        simp [Item.encodeAt, Item.operandsAt, this]
      | call target => rfl
    simp only [encodeFrom, hi]
    congr 1
    refine ih fun pre op l post hpre => ?_
    have := h (i :: pre) op l post (by rw [hpre, List.cons_append])
    simpa [Nat.add_assoc] using this

/-! ### Reading a listing back -/

theorem readFields?_encode :
    ∀ (fs : List Field) (vs : List Int) (rest : List UInt8), vs.length = fs.length →
      Instruction.readFields? fs ((List.zipWith Field.encode fs vs).flatten ++ rest) =
        some (List.zipWith (fun f v => f.decode (f.encode v)) fs vs)
  | [], [], _, _ => rfl
  | [], _ :: _, _, h => by simp at h
  | _ :: _, [], _, h => by simp at h
  | f :: fs, v :: vs, rest, h => by
    have hlen : (f.encode v).length = f.width := f.length_encode v
    have htake : ((f.encode v) ++ ((List.zipWith Field.encode fs vs).flatten ++ rest)).take f.width
        = f.encode v := List.take_left' hlen
    have hdrop : ((f.encode v) ++ ((List.zipWith Field.encode fs vs).flatten ++ rest)).drop f.width
        = (List.zipWith Field.encode fs vs).flatten ++ rest := List.drop_left' hlen
    have ih := readFields?_encode fs vs rest (by simpa using h)
    simp only [List.zipWith_cons_cons, List.flatten_cons, List.append_assoc,
      Instruction.readFields?, htake, hdrop, hlen, ih]
    simp

theorem zipWith_decode_encode {fs : List Field} {vs : List Int} (h : List.Forall₂ Field.Holds fs vs) :
    List.zipWith (fun f v => f.decode (f.encode v)) fs vs = vs := by
  induction h with
  | nil => rfl
  | cons hv _ ih => rw [List.zipWith_cons_cons, Field.decode_encode hv, ih]

theorem decodeFrom_encode {op : Opcode} {operands : List Int}
    (h : operands.length = op.fields.length) (o : Nat) (found : List Instruction)
    (rest : List UInt8) :
    Instruction.decodeFrom o found (op.encode operands ++ rest) =
      Instruction.decodeFrom (o + op.size)
        (⟨o, op, List.zipWith (fun f v => f.decode (f.encode v)) op.fields operands⟩ :: found)
        rest := by
  have hread := readFields?_encode op.fields operands rest h
  have hdrop : ((List.zipWith Field.encode op.fields operands).flatten ++ rest).drop (op.size - 1) =
      rest := by
    refine List.drop_left' ?_
    rw [Opcode.length_flatten_encode _ _ h]
    simp [Opcode.size, Opcode.widths]
  simp only [Opcode.encode, List.cons_append]
  rw [Instruction.decodeFrom]
  simp only [Opcode.ofByte?_byte, hread, hdrop]

theorem decodeFrom_encodeAt {i : Item} (h : i.WellFormed) (o : Nat) (found : List Instruction)
    (rest : List UInt8) :
    Instruction.decodeFrom o found (i.encodeAt fill o ++ rest) =
      Instruction.decodeFrom (o + i.size) (i.instructionAt fill o :: found) rest :=
  decodeFrom_encode (Item.length_operandsAt h) o found rest

theorem decodeFrom_encodeFrom {is : List Item} (h : ∀ i ∈ is, i.WellFormed) (o : Nat)
    (found : List Instruction) :
    Instruction.decodeFrom o found (encodeFrom fill o is) =
      .ok (found.reverse ++ instructionsFrom fill o is) := by
  induction is generalizing o found with
  | nil => simp [encodeFrom, instructionsFrom, Instruction.decodeFrom]
  | cons i is ih =>
    simp only [List.mem_cons, forall_eq_or_imp] at h
    rw [encodeFrom, decodeFrom_encodeAt h.1, ih h.2, instructionsFrom]
    simp

/-- The bytes of a listing are read back as its instructions. -/
theorem decode_encodeFrom {is : List Item} (h : ∀ i ∈ is, i.WellFormed) :
    Instruction.decode (encodeFrom fill 0 is) = .ok (instructionsFrom fill 0 is) := by
  simpa [Instruction.decode] using decodeFrom_encodeFrom h 0 []

/-! ### Overwriting operands -/

theorem toList_overwrite (code : Array UInt8) (pre mid post bytes : List UInt8)
    (h : code.toList = pre ++ mid ++ post) (hlen : mid.length = bytes.length) :
    (Assembly.overwrite code pre.length bytes).toList = pre ++ bytes ++ post := by
  induction bytes generalizing code pre mid with
  | nil =>
    rw [List.length_nil, List.length_eq_zero_iff] at hlen
    subst hlen
    simpa [Assembly.overwrite] using h
  | cons b bytes ih =>
    rcases mid with _ | ⟨m, mid⟩
    · simp at hlen
    · have hset : (code.setIfInBounds pre.length b).toList = (pre ++ [b]) ++ mid ++ post := by
        rw [Array.toList_setIfInBounds, h]
        simp
      have := ih _ (pre ++ [b]) mid hset (by simpa using hlen)
      simpa [Assembly.overwrite] using this

/-- Overwriting the operand of a jump is encoding the listing with that operand. -/
theorem overwrite_encodeFrom {pre post : List Item} {op : Opcode} {l : Label} {code : Array UInt8}
    (hwf : ∀ i ∈ pre ++ .jump op l :: post, i.WellFormed)
    (hcode : code.toList = encodeFrom fill 0 (pre ++ .jump op l :: post)) (v : Int) :
    (Assembly.overwrite code (codeSize pre + 1) (bigEndian 2 v)).toList =
      encodeFrom (fun q m => if q = codeSize pre + 1 then v else fill q m) 0
        (pre ++ .jump op l :: post) := by
  have hop : op.isRelative := Item.isRelative_jump (hwf (.jump op l) (by simp))
  have hsize : Item.size (.jump op l) = 3 := Opcode.size_of_isRelative hop
  have hpre : ∀ i ∈ pre, i.WellFormed := fun i hi => hwf i (by simp [hi])
  -- the operands before and behind the jump stay as they are
  have hfront : encodeFrom (fun q m => if q = codeSize pre + 1 then v else fill q m) 0 pre =
      encodeFrom fill 0 pre := by
    refine encodeFrom_congr fun p op' l' q hq => ?_
    have := (Item.jump op' l').size_pos
    simp only [hq, codeSize_append, codeSize_cons]
    rw [if_neg (by omega)]
  have hback : encodeFrom (fun q m => if q = codeSize pre + 1 then v else fill q m)
      (codeSize pre + 3) post = encodeFrom fill (codeSize pre + 3) post := by
    refine encodeFrom_congr fun p op' l' q hq => ?_
    rw [if_neg (by omega)]
  have hsplit : code.toList = (encodeFrom fill 0 pre ++ op.encode []) ++
      bigEndian 2 (fill (codeSize pre + 1) l) ++ encodeFrom fill (codeSize pre + 3) post := by
    rw [hcode, encodeFrom_append, encodeFrom, Item.encodeAt, Item.operandsAt, Item.opcode,
      Opcode.encode_of_isRelative hop, hsize]
    simp
  have hlen : (encodeFrom fill 0 pre ++ op.encode []).length = codeSize pre + 1 := by
    simp [length_encodeFrom hpre, Opcode.encode]
  rw [← hlen, toList_overwrite code _ _ _ _ hsplit (by simp), encodeFrom_append, encodeFrom,
    Item.encodeAt, Item.operandsAt, Item.opcode, Opcode.encode_of_isRelative hop, hsize]
  simp only [Nat.zero_add, hlen, hfront, hback, if_true, List.append_assoc]

end Encoding

/-! ### The operands that name a label -/

/-- The positions of the operands of the jumps to a label, in a listing whose first item stands at
the offset `o`. -/
def positionsFrom (l : Label) : Nat → List Item → List Nat
  | _, [] => []
  | o, .jump op m :: is =>
    (if m = l then [o + 1] else []) ++ positionsFrom l (o + Item.size (.jump op m)) is
  | o, i :: is => positionsFrom l (o + i.size) is

theorem positionsFrom_append (l : Label) (o : Nat) (is js : List Item) :
    positionsFrom l o (is ++ js) =
      positionsFrom l o is ++ positionsFrom l (o + codeSize is) js := by
  induction is generalizing o with
  | nil => simp [positionsFrom]
  | cons i is ih => cases i <;> simp [positionsFrom, ih, Nat.add_assoc]

theorem mem_positionsFrom {l : Label} {o p : Nat} {is : List Item} :
    p ∈ positionsFrom l o is ↔
      ∃ pre op post, is = pre ++ .jump op l :: post ∧ p = o + codeSize pre + 1 := by
  constructor
  · induction is generalizing o with
    | nil => simp [positionsFrom]
    | cons i is ih =>
      have hrest : p ∈ positionsFrom l (o + i.size) is →
          ∃ pre op post, i :: is = pre ++ .jump op l :: post ∧ p = o + codeSize pre + 1 := by
        intro h
        obtain ⟨pre, op, post, rfl, rfl⟩ := ih h
        exact ⟨i :: pre, op, post, rfl, by simp only [codeSize_cons]; omega⟩
      cases i with
      | plain op operands => exact hrest
      | call target => exact hrest
      | jump op m =>
        intro h
        rw [positionsFrom, List.mem_append] at h
        rcases h with h | h
        · split at h
          · next hm =>
            subst hm
            exact ⟨[], op, is, rfl, by simpa using h⟩
          · simp at h
        · exact hrest h
  · rintro ⟨pre, op, post, rfl, rfl⟩
    rw [positionsFrom_append]
    simp [positionsFrom]

end MicroJava
