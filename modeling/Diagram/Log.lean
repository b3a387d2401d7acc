import Diagram.Parse

/-!
What is told about a run as it goes on: records with a level, a message and named values.
-/
namespace Diagram

inductive LogLevel where
  | trace
  | debug
  | info
  | warn
  deriving DecidableEq, Repr

structure LogRecord where
  level : LogLevel
  message : String
  values : List (String × String)
  deriving DecidableEq, Repr

/-- The record of a container that was skipped. -/
def Skip.record (skip : Skip Position) : LogRecord :=
  ⟨.trace, "Skipping container nested too deep",
    [("depth", toString skip.depth), ("start", skip.start.display)]⟩

/-- The record of a source that failed. -/
def failureRecord (label reason : String) : LogRecord :=
  ⟨.trace, "Character source failed", [("label", label), ("error", reason)]⟩

/-- The records of what happened while a source was read, in order. -/
def State.records (s : State Position) (label : String) : List LogRecord :=
  let skips := s.skips.reverse
  (skips.filter fun skip => !skip.afterFailure).map Skip.record ++
    s.reader.failure.toList.map (failureRecord label) ++
    (skips.filter (·.afterFailure)).map Skip.record

/-- The records of reading a diagram, in order. -/
def parseRecords (label : String) (source : List Delivery) (options : Options) : List LogRecord :=
  let (map, s) := readFile options.counting.meter source options.maxDepth
  ⟨.debug, "Parsing source",
    [("label", label), ("utf16", toString options.utf16),
      ("max_depth", toString options.maxDepth)]⟩ ::
    s.records label ++
    [⟨.debug, "Parsed source",
      [("label", label), ("nodes", toString map.entries.length),
        ("diagnostics", toString s.problems.length),
        ("fatal", toString s.reader.failure.isSome)]⟩]

end Diagram
