import MicroJava.Bytecode.Field

/-!
# Program images

A compiled program, and its layout in a file: a signature, then the length of the code, the number
of global variables and the address of the entry method in four bytes each, then the code.
-/

namespace MicroJava

/-- A compiled program. -/
structure Image where
  code : Array UInt8
  /-- The number of global variables. -/
  dataSize : Nat
  /-- The address of the entry method, if the program has one. -/
  entry : Option Nat
  deriving DecidableEq, Inhabited

/-- Why an image could not be written. -/
inductive WriteError where
  /-- The place to write to is full. -/
  | full
  deriving DecidableEq, Repr, Inhabited

namespace Image

/-- The signature of an image: the letters MJ. -/
def signature : List UInt8 := [0x4D, 0x4A]

/-- What stands in front of the code. A missing entry method counts as address 0. -/
def header (i : Image) : List UInt8 :=
  signature ++ bigEndian 4 i.code.size ++ bigEndian 4 i.dataSize ++ bigEndian 4 (i.entry.getD 0)

/-- The bytes of the image. -/
def toBytes (i : Image) : List UInt8 := i.header ++ i.code.toList

/-- Writes the image over the front of a buffer, which takes what it has room for. -/
def writeTo (i : Image) (buffer : List UInt8) : List UInt8 × Except WriteError Unit :=
  let bytes := i.toBytes
  (bytes.take buffer.length ++ buffer.drop bytes.length,
    if bytes.length ≤ buffer.length then .ok () else .error .full)

end Image

end MicroJava
