/-!
# Options of a compilation

The limits that a program has to keep, and what the language leaves open. The default limits are
those of the virtual machine.
-/

namespace MicroJava

/-- What a compilation can be told. -/
structure Options where
  /-- The most declarations of the program. -/
  maxGlobals : Nat := 32767
  /-- The most fields of a class. -/
  maxFields : Nat := 32767
  /-- The most parameters and local variables of a method. -/
  maxLocals : Nat := 127
  /-- How many tokens must lie between two reports for the second to be kept. -/
  reportDistance : UInt32 := 3
  /-- The name of the method in which the program starts. -/
  entryName : String := "main"
  /-- The field width of `print` where the program gives none. -/
  printWidth : Int32 := 1
  deriving DecidableEq, Inhabited

end MicroJava
