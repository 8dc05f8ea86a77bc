import MicroJava.Bytecode.Field

/-!
# Opcodes

The instructions of the virtual machine: the byte that stands for each, its mnemonic, and the
operands behind it. The bytes are 1 to 58 in the order of the opcodes, and no two opcodes share one
(`ofByte?_byte`, `byte_of_ofByte?`).
-/

namespace MicroJava

/-- An instruction without its operands. -/
inductive Opcode where
  /-- Push a local variable. -/
  | load
  | load0
  | load1
  | load2
  | load3
  /-- Pop into a local variable. -/
  | store
  | store0
  | store1
  | store2
  | store3
  /-- Push a global variable. -/
  | getStatic
  /-- Pop into a global variable. -/
  | putStatic
  /-- Replace an object by one of its fields. -/
  | getField
  /-- Pop a value and an object, and store the value in a field. -/
  | putField
  | const0
  | const1
  | const2
  | const3
  | const4
  | const5
  | constMinus1
  /-- Push a constant of four bytes. -/
  | const
  | add
  | sub
  | mul
  | div
  | rem
  /-- Negate the top. -/
  | neg
  | shl
  | shr
  /-- Add a signed byte to a local variable. -/
  | inc
  /-- Push a new object of the given size. -/
  | newObject
  /-- Replace a length by a new array: of characters for 0, of words for 1. -/
  | newArray
  /-- Replace an array and an index by the word there. -/
  | arrayLoad
  /-- Pop an array, an index and a value, and store the word. -/
  | arrayStore
  /-- Replace an array and an index by the character there. -/
  | charLoad
  /-- Pop an array, an index and a value, and store the character. -/
  | charStore
  /-- Replace an array by its length. -/
  | arrayLength
  /-- Drop the top. -/
  | pop
  /-- Push the top again. -/
  | dup
  /-- Push the top two again. -/
  | dup2
  /-- Jump, relative to the end of the instruction. -/
  | jump
  | jumpEq
  | jumpNe
  | jumpLt
  | jumpLe
  | jumpGt
  | jumpGe
  /-- Call a method, relative to the end of the instruction. -/
  | call
  /-- Return to the caller. -/
  | ret
  /-- Make a frame of the given number of parameters and size. -/
  | enter
  /-- Drop the frame. -/
  | exit
  /-- Push an integer that is read. -/
  | read
  /-- Print an integer in a field of the given width. -/
  | print
  /-- Push a character that is read. -/
  | readChar
  /-- Print a character in a field of the given width. -/
  | printChar
  /-- Stop with the given error. -/
  | trap
  /-- Do nothing. -/
  | nop
  deriving DecidableEq, Repr, Inhabited

namespace Opcode

/-- All opcodes, in their order. -/
def all : List Opcode :=
  [load, load0, load1, load2, load3, store, store0, store1, store2, store3, getStatic,
   putStatic, getField, putField, const0, const1, const2, const3, const4, const5, constMinus1,
   const, add, sub, mul, div, rem, neg, shl, shr, inc, newObject, newArray, arrayLoad,
   arrayStore, charLoad, charStore, arrayLength, pop, dup, dup2, jump, jumpEq, jumpNe, jumpLt,
   jumpLe, jumpGt, jumpGe, call, ret, enter, exit, read, print, readChar, printChar, trap, nop]

theorem mem_all (op : Opcode) : op ∈ all := by cases op <;> decide

def mnemonic : Opcode → String
  | load => "load"
  | load0 => "load_0"
  | load1 => "load_1"
  | load2 => "load_2"
  | load3 => "load_3"
  | store => "store"
  | store0 => "store_0"
  | store1 => "store_1"
  | store2 => "store_2"
  | store3 => "store_3"
  | getStatic => "getstatic"
  | putStatic => "putstatic"
  | getField => "getfield"
  | putField => "putfield"
  | const0 => "const_0"
  | const1 => "const_1"
  | const2 => "const_2"
  | const3 => "const_3"
  | const4 => "const_4"
  | const5 => "const_5"
  | constMinus1 => "const_m1"
  | const => "const"
  | add => "add"
  | sub => "sub"
  | mul => "mul"
  | div => "div"
  | rem => "rem"
  | neg => "neg"
  | shl => "shl"
  | shr => "shr"
  | inc => "inc"
  | newObject => "new"
  | newArray => "newarray"
  | arrayLoad => "aload"
  | arrayStore => "astore"
  | charLoad => "baload"
  | charStore => "bastore"
  | arrayLength => "arraylength"
  | pop => "pop"
  | dup => "dup"
  | dup2 => "dup2"
  | jump => "jmp"
  | jumpEq => "jeq"
  | jumpNe => "jne"
  | jumpLt => "jlt"
  | jumpLe => "jle"
  | jumpGt => "jgt"
  | jumpGe => "jge"
  | call => "call"
  | ret => "return"
  | enter => "enter"
  | exit => "exit"
  | read => "read"
  | print => "print"
  | readChar => "bread"
  | printChar => "bprint"
  | trap => "trap"
  | nop => "nop"

/-- The operands, in their order. -/
def fields : Opcode → List Field
  | load | store | getStatic | putStatic | getField | putField | newObject => [.short]
  | jump | jumpEq | jumpNe | jumpLt | jumpLe | jumpGt | jumpGe | call => [.signedShort]
  | const => [.word]
  | newArray | trap => [.byte]
  | inc => [.byte, .signedByte]
  | enter => [.byte, .byte]
  | _ => []

/-- The widths of the operands, in their order. -/
def widths (op : Opcode) : List Nat := op.fields.map (·.width)

/-- The length of the instruction in bytes. -/
def size (op : Opcode) : Nat := 1 + op.widths.foldr (· + ·) 0

/-- The byte that stands for the opcode. -/
def byte (op : Opcode) : UInt8 := .ofNat (all.idxOf op + 1)

/-- The opcode that a byte stands for. -/
def ofByte? (b : UInt8) : Option Opcode := if b = 0 then none else all[b.toNat - 1]?

/-- The opcode with a mnemonic. -/
def ofMnemonic? (text : String) : Option Opcode := all.find? fun op => op.mnemonic == text

@[simp] theorem ofByte?_byte (op : Opcode) : ofByte? op.byte = some op := by
  cases op <;> decide

theorem byte_of_ofByte? {b : UInt8} {op : Opcode} (h : ofByte? b = some op) : op.byte = b := by
  unfold ofByte? at h
  split at h
  · simp at h
  · next hb =>
    obtain ⟨hi, rfl⟩ := List.getElem?_eq_some_iff.1 h
    have hn : all.Nodup := by decide
    unfold byte
    rw [hn.idxOf_getElem]
    have : b.toNat ≠ 0 := fun h0 => hb (UInt8.toNat_inj.1 h0)
    rw [Nat.sub_add_cancel (by omega), UInt8.ofNat_toNat]

/-- A jump, conditional or not, within a method. -/
def isJump : Opcode → Bool
  | jump | jumpEq | jumpNe | jumpLt | jumpLe | jumpGt | jumpGe => true
  | _ => false

/-- An instruction whose operand is a distance. -/
def isRelative (op : Opcode) : Bool := op.isJump || op = call

/-- The opcode and the low bits of its operands. -/
def encode (op : Opcode) (operands : List Int) : List UInt8 :=
  op.byte :: (List.zipWith Field.encode op.fields operands).flatten

end Opcode

end MicroJava
