import MicroJava.Symbol.Handle

/-!
# Faults

A mistake in the compiled program is a diagnostic, and compilation goes on. A fault ends it: the
code has grown too large for its jumps, or the compiler has broken one of its own rules.
-/

namespace MicroJava

/-- The index of a label. -/
structure Label where
  index : Nat
  deriving DecidableEq, Repr, Inhabited

/-- Why there is no image. -/
inductive Fault where
  | labelDefinedTwice (first second : Nat)
  /-- Jumps to labels that are never defined. -/
  | unpatchedJumps (count : Nat)
  | patchOutOfBounds (position size : Nat)
  /-- A jump or call whose distance does not fit its operand. -/
  | jumpOutOfRange (position : Nat) (distance : Int)
  /-- A handle that no arena has given out. -/
  | unknownLabel (label : Label)
  | unknownEntry (id : EntryId)
  | unknownType (id : TypeId)
  /-- A production that reads on without taking a token. -/
  | stalled
  deriving DecidableEq, Repr, Inhabited

namespace Fault

def message : Fault → String
  | labelDefinedTwice first second => s!"label defined twice (first at {first}, again at {second})"
  | unpatchedJumps count => s!"{count} jump(s) left unpatched"
  | patchOutOfBounds position size =>
    s!"patch position {position} out of bounds (code size {size})"
  | jumpOutOfRange position distance =>
    s!"jump distance {distance} at {position} does not fit in 16 bits"
  | unknownLabel label => s!"label {label.index} is not known"
  | unknownEntry id => s!"entry {id.index} is not known"
  | unknownType id => s!"type {id.index} is not known"
  | stalled => "no token was taken"

end Fault

end MicroJava
