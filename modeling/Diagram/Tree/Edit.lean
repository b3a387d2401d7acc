import Diagram.Range
import Diagram.Tree.Equality
import Diagram.Tree.Quoting

/-!
Changing a tree: entries are inserted next to others, keys get scalars, texts get other content.
-/
namespace Diagram

/-- The map of a whole file, and not one in braces: it starts in the first line and column. -/
def Map.isFileMap (m : Map Range) : Bool :=
  m.range.start.line == 0 && m.range.start.column == 0

/-- The index of the last element that is equal to `a`. -/
def lastIndexOf? {α : Type} [DecidableEq α] (a : α) : List α → Option Nat
  | [] => none
  | b :: bs =>
    match lastIndexOf? a bs with
    | some i => some (i + 1)
    | none => if a = b then some 0 else none

namespace Map

variable {ρ : Type} [DecidableEq ρ]

/-- Inserts an entry behind the last one that is equal to `anchor`, or else at the end. -/
def insertAfter (m : Map ρ) (anchor entry : Entry ρ) : Map ρ :=
  let i := ((lastIndexOf? anchor m.entries).map (· + 1)).getD m.entries.length
  { m with entries := m.entries.insertIdx i entry }

/-- Inserts an entry in front of the last one that is equal to `anchor`, or else at the end. -/
def insertBefore (m : Map ρ) (anchor entry : Entry ρ) : Map ρ :=
  let i := (lastIndexOf? anchor m.entries).getD m.entries.length
  { m with entries := m.entries.insertIdx i entry }

end Map

variable {ρ : Type}

/-- Gives a key a scalar: the primary one beside a map or a sequence, and otherwise its value. -/
def Key.setScalar (k : Key ρ) (scalar : Scalar ρ) : Key ρ :=
  match k.value with
  | some (.map _) | some (.sequence _) => { k with primary := some scalar }
  | _ => { k with value := some (.scalar scalar) }

/-- Changes the content of one segment of the key's path. -/
def Key.setSegment? (k : Key ρ) (i : Nat) (s : String) : Option (Key ρ) := do
  let path ← k.path
  let segment ← path.segments[i]?
  pure { k with path := some { path with segments := path.segments.set i (segment.setContent s) } }

/-- Changes the content of the text that is the key's value. -/
def Key.setText? (k : Key ρ) (s : String) : Option (Key ρ) :=
  match k.value with
  | some (.scalar (.text t)) => some { k with value := some (.scalar (.text (t.setContent s))) }
  | _ => none

end Diagram
