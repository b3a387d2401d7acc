import Diagram.Diagnostic.Cause
import Diagram.Range

/-!
Diagnostics: problems as they are reported, with a code, the range they concern and a message.
-/
namespace Diagram

structure Diagnostic where
  code : Code
  range : Range
  message : String
  help : Option String
  deriving DecidableEq, Repr

/-- Reports a cause at a range. -/
def Diagnostic.of (cause : Cause) (range : Range) : Diagnostic :=
  ⟨cause.code, range, cause.message, cause.help?⟩

/-- The place and the message, on one line. -/
def Diagnostic.display (d : Diagnostic) : String :=
  d.range.display ++ ": " ++ d.message

/-- What is wrong with a text: the failure of its source if there was one, and the problems found
in what the source delivered. -/
structure ParseError where
  fatal : Option Diagnostic
  diagnostics : List Diagnostic
  deriving DecidableEq, Repr

namespace ParseError

/-- A single problem. -/
def single (d : Diagnostic) : ParseError := ⟨none, [d]⟩

/-- All diagnostics, the failure of the source first. -/
def toList (e : ParseError) : List Diagnostic :=
  e.fatal.toList ++ e.diagnostics

/-- One line for each diagnostic. -/
def display (e : ParseError) : String :=
  "\n".intercalate (e.toList.map Diagnostic.display)

end ParseError

end Diagram
