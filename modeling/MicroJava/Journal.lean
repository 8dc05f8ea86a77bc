import MicroJava.Token.Scan

/-!
# The journal of a compilation

The journal records, newest first, what a compilation does with its tokens: each token taken, each
mistake reported, and each time it finds its place again after skipping tokens. A report too close
behind the last report, or behind such a place, is recorded but not kept, since it likely has the
same cause. The log of a compilation consists of the diagnostics of the tokens taken and of the
reports kept.

The distance to the last report is counted in 32 bits, and starts from the distance that lets the
first report be kept.
-/

namespace MicroJava

/-- What happened in a compilation. -/
inductive Event where
  | took (t : Token.Scanned)
  | reported (d : Diagnostic) (kept : Bool)
  /-- The compilation has found its place again. -/
  | resumed
  deriving DecidableEq, Inhabited

namespace Event

/-- The diagnostics that an event brings to the log. -/
def diagnostics : Event → List Diagnostic
  | took t => t.diagnostics
  | reported d kept => if kept then [d] else []
  | resumed => []

end Event

/-- What happened so far, and how many tokens were taken since the last report or resumption. -/
structure Journal where
  /-- The events, newest first. -/
  events : List Event := []
  distance : UInt32
  deriving DecidableEq, Inhabited

namespace Journal

def took (j : Journal) (t : Token.Scanned) : Journal where
  events := .took t :: j.events
  distance := j.distance + 1

/-- Records a report, which is kept if it is at least `least` tokens away from the last one. -/
def report (j : Journal) (least : UInt32) (d : Diagnostic) : Journal where
  events := .reported d (least ≤ j.distance) :: j.events
  distance := 0

def resume (j : Journal) : Journal where
  events := .resumed :: j.events
  distance := 0

/-- The diagnostics in the order in which they were reported. -/
def log (j : Journal) : Log := Log.extend {} (j.events.reverse.flatMap Event.diagnostics)

end Journal

end MicroJava
