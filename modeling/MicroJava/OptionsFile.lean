import MicroJava.Options
import MicroJava.Toml.Reader

/-!
# Options from a file

Options can be set in a TOML file. A key that is missing keeps its default, and a key that is no
option does not matter; an option with a value of another type or out of range is an error.
-/

namespace MicroJava

/-- Why options cannot be read. -/
inductive OptionsError where
  | noSuchFile
  /-- The file is not a text in UTF-8. -/
  | notText
  /-- The text does not set options. -/
  | invalid
  deriving DecidableEq, Repr, Inhabited

namespace Options

open Toml

/-- An integer from `least` to `most`, or the default where the key is missing. -/
def integerOr (t : Table) (key : String) (default least most : Int) : Option Int :=
  match t.find? key with
  | none => some default
  | some (.value (.integer v)) => if least ≤ v ∧ v ≤ most then some v else none
  | some _ => none

/-- A string, or the default where the key is missing. -/
def stringOr (t : Table) (key : String) (default : String) : Option String :=
  match t.find? key with
  | none => some default
  | some (.value (.string s)) => some s
  | some _ => none

/-- The options that a table sets. -/
def ofTable? (t : Table) : Option Options := do
  let standard : Options := {}
  let limit (key : String) (default : Nat) : Option Nat :=
    (integerOr t key default 0 Int64.maxValue.toInt).map Int.toNat
  return {
    maxGlobals := ← limit "max_globals" standard.maxGlobals
    maxFields := ← limit "max_fields" standard.maxFields
    maxLocals := ← limit "max_locals" standard.maxLocals
    reportDistance := ← (integerOr t "min_error_distance" standard.reportDistance.toNat 0
      (UInt32.size - 1)).map fun v => .ofNat v.toNat
    entryName := ← stringOr t "entry_point" standard.entryName
    printWidth := ← (integerOr t "default_print_width" standard.printWidth.toInt
      Int32.minValue.toInt Int32.maxValue.toInt).map .ofInt }

/-- The options that a text sets. -/
def ofText (text : String) : Except OptionsError Options :=
  match (Toml.read text).bind ofTable? with
  | some options => .ok options
  | none => .error .invalid

/-- The options that a file sets, given its bytes if it exists. -/
def ofFile (file : Option ByteArray) : Except OptionsError Options :=
  match file with
  | none => .error .noSuchFile
  | some bytes =>
    match String.fromUTF8? bytes with
    | none => .error .notText
    | some text => ofText text

end Options

end MicroJava
