import Diagram.Failure

/-!
Reports of failures, ready to be shown beside the text they concern. There is one for each
diagnostic of a diagram, with a label on the bytes of its text, and one for any other failure.
-/
namespace Diagram

/-- A mark on a stretch of a text, counted in bytes. -/
structure Label where
  offset : Nat
  length : Nat
  text : String
  primary : Bool
  deriving DecidableEq, Repr

structure Report where
  text : String
  code : Option String
  help : Option String
  labels : List Label
  /-- What led to the failure, if it is not the failure itself. -/
  cause : Option String
  /-- The labels are on a text that is shown too. -/
  hasText : Bool
  deriving DecidableEq, Repr

/-- The number of bytes before the first character with `offset` UTF-16 code units or more before
it. -/
def byteOffsetOfUnits (offset : Nat) : List Char → Nat
  | [] => 0
  | c :: cs =>
    if offset = 0 then 0
    else c.utf8Size + byteOffsetOfUnits (offset - Counting.size .units16 c) cs

/-- The number of bytes before an offset, which does not go beyond the end of the text. -/
def byteOffset (counting : Counting) (offset : Nat) (cs : List Char) : Nat :=
  match counting with
  | .bytes => min offset (Counting.length .bytes cs)
  | .units16 => byteOffsetOfUnits offset cs

/-- The label of a diagnostic on a text. -/
def Diagnostic.label (d : Diagnostic) (counting : Counting) (cs : List Char) : Label :=
  let start := byteOffset counting d.range.start.offset cs
  let stop := max (byteOffset counting d.range.stop.offset cs) start
  ⟨start, stop - start, d.code.description, true⟩

/-- The report of a diagnostic on a text. -/
def Diagnostic.report (d : Diagnostic) (counting : Counting) (cs : List Char) : Report :=
  ⟨d.display, some d.code.name, d.help, [d.label counting cs], none, true⟩

/-- The reports of a failure. -/
def Failure.reports (failure : Failure) : List Report :=
  match failure with
  | .diagram error text utf16 =>
    error.toList.map fun d => d.report (if utf16 then .units16 else .bytes) text.toList
  | .file error => [⟨failure.message, some "d2::io", none, [], some error.message, false⟩]
  | .settings error => [⟨failure.message, some "d2::config", none, [], some error.message, false⟩]
  | .output reason => [⟨failure.message, some "d2::output", none, [], some reason, false⟩]

end Diagram
