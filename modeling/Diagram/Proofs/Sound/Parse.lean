import Diagram.Parse
import Diagram.Proofs.Sound.Container

/-!
In the tree of a source, every range is a stretch of the text that the source delivered. A source
that fails is reported behind that text.
-/
namespace Diagram

variable {π α : Type}

/-! ## Before anything is read -/

/-- The frame of a run over a whole source. -/
def Frame.ofSource (meter : Meter π) (lawful : meter.Lawful) (source : List Delivery)
    (limit : Nat) : Frame π :=
  ⟨⟨meter, lawful, delivered source, source.length, failureOf source, behindFailure source⟩,
    0, limit, false⟩

theorem State.ofSource_at {meter : Meter π} (lawful : meter.Lawful) (source : List Delivery)
    (limit : Nat) :
    (State.ofSource meter source limit).At (.ofSource meter lawful source limit) [] [] :=
  ⟨Reader.ofSource_at lawful source, rfl, rfl, rfl⟩

/-! ## The tree of a source -/

/-- The range in the text called `label` from one character index to another. -/
def rangeBetween (label : String) (counting : Counting) (text : List Char) (i j : Nat) : Range :=
  ⟨label, .after counting (text.take i), .after counting (text.take j)⟩

theorem Counting.meter_after (counting : Counting) (cs : List Char) :
    counting.meter.after cs = Position.after counting cs := rfl

/-- **Ranges of a tree**: every node of the tree of a source is marked with the range between two
indexes of the text delivered, children lie inside their parents, and children in a row follow each
other without overlap. -/
theorem parse_within (label : String) (source : List Delivery) (options : Options) :
    (parse label source options).map.Within
      (rangeBetween label options.counting (delivered source)) 0 (delivered source).length := by
  have hstart := State.ofSource_at options.counting.meter_lawful source options.maxDepth
  obtain ⟨q, -, hend, hwithin⟩ :=
    Grammar.fileMap_reads rfl (Grammar.value_reads rfl) [] _ hstart
  have hlength : q.length ≤ (delivered source).length := hend.reader.length_le
  exact ((Map.Within.mapMarks (Span.toRange label) _ hwithin)).mono (Nat.le_refl 0) hlength

theorem failureOf_deliveries (cs : List Char) : failureOf (deliveries cs) = none := by
  induction cs with
  | nil => rfl
  | cons c cs ih => exact ih

/-- **Failures**: a source that fails is reported with its reason, behind what it delivered. -/
theorem parse_fatal (label : String) (source : List Delivery) (options : Options) :
    (parse label source options).fatal = (failureOf source).map fun reason =>
      .of (.sourceFailure reason) (rangeBetween label options.counting (delivered source)
        (delivered source).length (delivered source).length) := by
  have hstart := State.ofSource_at options.counting.meter_lawful source options.maxDepth
  obtain ⟨-, hend⟩ := Grammar.fileMap_finishes rfl (Grammar.value_reads rfl) [] _ hstart
  have hfailure := hend.stands.reader.failure_of_ended hend.ended
  have hreach := hend.stands.reader.reach_of_ended hend.ended
  show ((readFile options.counting.meter source options.maxDepth).2.reader.failure).map _ = _
  rw [readFile, hfailure]
  exact congrArg (fun p : Position => (failureOf source).map fun reason =>
    Diagnostic.of (.sourceFailure reason) ⟨label, p, p⟩) hreach

end Diagram
