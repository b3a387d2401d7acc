import Diagram.Position

/-!
Ranges: the stretch of a named text that a part of a diagram was read from.
-/
namespace Diagram

/-- The stretch from `start` up to `stop` in the text called `label`. -/
structure Range where
  label : String
  start : Position
  stop : Position
  deriving DecidableEq, Repr, Inhabited

namespace Range

/-- The empty range at the start of a text without a name. -/
def nowhere : Range := ⟨"", .start, .start⟩

/-- Starts and stops on the same line. -/
def isOneLine (r : Range) : Bool :=
  r.start.line == r.stop.line

/-- Where the range starts, as a reader is told it. -/
def display (r : Range) : String :=
  if r.label = "" then r.start.display else r.label ++ ":" ++ r.start.display

end Range

end Diagram
