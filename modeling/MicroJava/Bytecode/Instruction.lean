import MicroJava.Bytecode.Opcode

/-!
# Instructions

Code read back as instructions. Reading takes whole instructions from the front, and fails at the
first byte that is no opcode or whose operands run past the end of the code.
-/

namespace MicroJava

/-- Why code cannot be read. -/
inductive DecodeError where
  | unknownOpcode (offset : Nat) (byte : UInt8)
  | truncated (offset : Nat) (opcode : Opcode)
  deriving DecidableEq, Repr, Inhabited

namespace DecodeError

def message : DecodeError → String
  | unknownOpcode offset byte => s!"unknown opcode {byte.toNat} at {offset}"
  | truncated offset opcode => s!"truncated {opcode.mnemonic} at {offset}"

end DecodeError

/-- An instruction at its offset in the code. -/
structure Instruction where
  offset : Nat
  opcode : Opcode
  operands : List Int
  deriving DecidableEq, Repr, Inhabited

namespace Instruction

/-- The length of the instruction in bytes. -/
def size (i : Instruction) : Nat := i.opcode.size

/-- The bytes of the instruction. -/
def encode (i : Instruction) : List UInt8 := i.opcode.encode i.operands

/-- Where a jump or call goes, unless that is before the code. -/
def target? (i : Instruction) : Option Nat :=
  if i.opcode.isRelative then
    i.operands.head?.bind fun distance =>
      let target := (i.offset + 3 : Int) + distance
      if 0 ≤ target then some target.toNat else none
  else none

/-- The values of fields at the front of the code, unless they run past its end. -/
def readFields? : List Field → List UInt8 → Option (List Int)
  | [], _ => some []
  | f :: fs, code =>
    let bytes := code.take f.width
    if bytes.length < f.width then none
    else (readFields? fs (code.drop f.width)).map (f.decode bytes :: ·)

/-- The instructions of code that starts at an offset, behind those found before, which stand last
first. -/
def decodeFrom (offset : Nat) (found : List Instruction) :
    List UInt8 → Except DecodeError (List Instruction)
  | [] => .ok found.reverse
  | b :: code =>
    match Opcode.ofByte? b with
    | none => .error (.unknownOpcode offset b)
    | some op =>
      match readFields? op.fields code with
      | none => .error (.truncated offset op)
      | some operands =>
        decodeFrom (offset + op.size) (⟨offset, op, operands⟩ :: found) (code.drop (op.size - 1))
  termination_by code => code.length
  decreasing_by simp only [List.length_cons, List.length_drop]; omega

/-- The instructions of code. -/
def decode (code : List UInt8) : Except DecodeError (List Instruction) := decodeFrom 0 [] code

/-- A number in a column that is at least `width` characters wide. -/
def column (width n : Nat) : String :=
  let digits := toString n
  .ofList (List.replicate (width - digits.length) ' ') ++ digits

/-- One line of a listing. -/
def text (i : Instruction) : String :=
  let operands := String.join (i.operands.map fun v => s!" {v}")
  let target := match i.target? with
    | some target => s!" (-> {target})"
    | none => ""
  s!"{column 5 i.offset}: {i.opcode.mnemonic}{operands}{target}"

/-- The lines of a listing of code. -/
def listing (code : List UInt8) : Except DecodeError (List String) :=
  (decode code).map fun is => is.map text

end Instruction

end MicroJava
