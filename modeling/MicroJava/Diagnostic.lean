import MicroJava.Text.Position
import MicroJava.Problem

/-!
# Diagnostics

A diagnostic is a problem at a place in the source text. The log of a compilation only grows, and
keeps its diagnostics in the order in which they were reported.
-/

namespace MicroJava

/-- A problem at a place, with the details of its wording. -/
structure Diagnostic where
  position : Position
  problem : Problem
  details : List String := []
  deriving DecidableEq, Repr, Inhabited

namespace Diagnostic

/-- The wording, without the place. -/
def message (d : Diagnostic) : String := d.problem.message d.details

/-- The line that is shown to the programmer. -/
def text (d : Diagnostic) : String :=
  s!"-- line {d.position.line} col {d.position.column}: {d.message}"

end Diagnostic

/-- The diagnostics reported so far. -/
structure Log where
  entries : Array Diagnostic := #[]
  deriving DecidableEq, Repr, Inhabited

namespace Log

def report (l : Log) (d : Diagnostic) : Log := ⟨l.entries.push d⟩

def extend (l : Log) (ds : List Diagnostic) : Log := ds.foldl report l

def size (l : Log) : Nat := l.entries.size

def isEmpty (l : Log) : Bool := l.entries.isEmpty

def last? (l : Log) : Option Diagnostic := l.entries.back?

def toList (l : Log) : List Diagnostic := l.entries.toList

@[simp] theorem toList_report (l : Log) (d : Diagnostic) :
    (l.report d).toList = l.toList ++ [d] := by
  simp [toList, report]

@[simp] theorem toList_extend (l : Log) (ds : List Diagnostic) :
    (l.extend ds).toList = l.toList ++ ds := by
  induction ds generalizing l with
  | nil => simp [extend]
  | cons d ds ih =>
    have : l.extend (d :: ds) = (l.report d).extend ds := rfl
    simp [this, ih]

end Log

end MicroJava
