import Diagram.Grammar.Container
import Diagram.Diagnostic.Basic
import Diagram.Tree.Mark

/-!
Reading diagrams. `parse` reads a whole source and always gives a tree, together with everything
that is wrong with the text. `parsePath`, `parseKey` and `parseValue` read one part from the start
of a text and accept no problem.
-/
namespace Diagram

/-- The containers that may be inside each other where no limit is chosen. -/
def defaultDepth : Nat := 64

structure Options where
  /-- Counts columns and offsets in UTF-16 code units instead of bytes. -/
  utf16 : Bool := false
  /-- The number of containers that may be inside each other. -/
  maxDepth : Nat := defaultDepth
  deriving DecidableEq, Repr

def Options.counting (options : Options) : Counting :=
  if options.utf16 then .units16 else .bytes

/-- What a source was found to hold. -/
@[ext]
structure Output where
  map : Map Range
  /-- The problems found in the text, in the order they were noticed. -/
  diagnostics : List Diagnostic
  /-- The failure of the source. -/
  fatal : Option Diagnostic

/-- Everything that is wrong, if anything is. -/
def Output.error? (output : Output) : Option ParseError :=
  if output.diagnostics.isEmpty && output.fatal.isNone then none
  else some ⟨output.fatal, output.diagnostics⟩

/-- The range of a span in the text called `label`. -/
def Span.toRange (label : String) (span : Span Position) : Range :=
  ⟨label, span.start, span.stop⟩

/-- The diagnostic of a problem in the text called `label`. -/
def Problem.toDiagnostic (label : String) (counting : Counting) (problem : Problem Position) :
    Diagnostic :=
  .of problem.cause ⟨label, problem.start.resolve counting.meter, problem.stop⟩

/-- Reads the map of a whole file. -/
def readFile {π : Type} [DecidableEq π] (meter : Meter π) (source : List Delivery)
    (maxDepth : Nat) : Map (Span π) × State π :=
  Grammar.fileMap Grammar.value (.ofSource meter source maxDepth)

/-- The diagnostics of the problems found, in the order they were noticed. -/
def State.diagnostics (s : State Position) (label : String) (counting : Counting) :
    List Diagnostic :=
  s.problems.reverse.map (Problem.toDiagnostic label counting)

/-- The diagnostic of a source that failed, at the end of what it delivered. -/
def State.fatal (s : State Position) (label : String) : Option Diagnostic :=
  s.reader.failure.map fun reason =>
    .of (.sourceFailure reason) ⟨label, s.reader.reach, s.reader.reach⟩

/-- Reads a diagram. -/
def parse (label : String) (source : List Delivery) (options : Options) : Output :=
  let (map, s) := readFile options.counting.meter source options.maxDepth
  ⟨map.mapMarks (Span.toRange label), s.diagnostics label options.counting, s.fatal label⟩

/-- Reads a diagram that is held in memory. -/
def parseText (label : String) (text : String) (options : Options) : Output :=
  parse label (deliveries text.toList) options

/-- Reads one part from the start of a text; `empty` says what is wrong if there is none. -/
def parsePart {α : Type} (grammar : Grammar Position (Option α)) (empty : Cause) (text : String) :
    Except ParseError α :=
  let (part, s) :=
    grammar (.ofSource Counting.bytes.meter (deliveries text.toList) defaultDepth)
  match s.diagnostics "" .bytes, part with
  | [], some part => .ok part
  | [], none => .error (.single (.of empty .nowhere))
  | diagnostics, _ => .error ⟨none, diagnostics⟩

/-- Reads a key path such as `a.b."c d"`. -/
def parsePath (text : String) : Except ParseError (KeyPath Range) := do
  let path ← parsePart Grammar.path (.emptyPath text) text
  return path.mapMarks (Span.toRange "")

/-- Reads a key such as `a -> b: label`. -/
def parseKey (text : String) : Except ParseError (Key Range) := do
  let key ← parsePart (Grammar.key Grammar.value) .emptyKey text
  return key.mapMarks (Span.toRange "")

/-- Reads a value: a scalar, a sequence or a map. -/
def parseValue (text : String) : Except ParseError (Value Range) := do
  let value ← parsePart Grammar.value .emptyValue text
  return value.mapMarks (Span.toRange "")

end Diagram
