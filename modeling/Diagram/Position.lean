/-!
Places in a text. A position counts lines from zero, and columns and offsets in the units of one
encoding, UTF-8 or UTF-16. `Position.advance` moves it over characters; `Position.after` is the
position behind a whole stretch of text.

The fields of a position hold numbers up to `maxWord`. All places of a text that is read are in
front of that, but a position that is given may have no room for what it is moved over:
`Position.stepForward` fails there, as `Position.stepBack` does in front of a line.

What reads a text is told how to measure places by a `Meter`. Positions in either counting make one,
and plain character indexes make another.
-/
namespace Diagram

/-- How the places in a text are measured. -/
structure Meter (π : Type) where
  /-- The place in front of the first character. -/
  start : π
  /-- The place behind a character, from the place in front of it. -/
  advance : π → Char → π
  /-- The place in front of a character, from the place behind it. -/
  before : π → Char → π

namespace Meter

variable {π : Type} (m : Meter π)

/-- The place behind a stretch of text. -/
def advanceBy (p : π) (cs : List Char) : π :=
  cs.foldl m.advance p

/-- The place behind a text. -/
def after (cs : List Char) : π :=
  m.advanceBy m.start cs

@[simp] theorem advanceBy_nil (p : π) : m.advanceBy p [] = p := rfl

@[simp] theorem advanceBy_cons (p : π) (c : Char) (cs : List Char) :
    m.advanceBy p (c :: cs) = m.advanceBy (m.advance p c) cs := rfl

theorem advanceBy_append (p : π) (u v : List Char) :
    m.advanceBy p (u ++ v) = m.advanceBy (m.advanceBy p u) v :=
  List.foldl_append

@[simp] theorem after_nil : m.after [] = m.start := rfl

theorem after_append (u v : List Char) : m.after (u ++ v) = m.advanceBy (m.after u) v :=
  m.advanceBy_append m.start u v

/-- Places are measured by the number of characters in front of them. -/
def index : Meter Nat := ⟨0, fun i _ => i + 1, fun i _ => i - 1⟩

end Meter

/-- The units that columns and offsets are counted in. -/
inductive Counting where
  /-- Bytes of the UTF-8 form. -/
  | bytes
  /-- Code units of the UTF-16 form. -/
  | units16
  deriving DecidableEq, Repr

/-- The units one character takes. -/
def Counting.size : Counting → Char → Nat
  | .bytes, c => c.utf8Size
  | .units16, c => if c.toNat < 0x10000 then 1 else 2

/-- The units a stretch of text takes. -/
def Counting.length (counting : Counting) : List Char → Nat
  | [] => 0
  | c :: cs => counting.size c + counting.length cs

theorem Counting.size_pos (counting : Counting) (c : Char) : 0 < counting.size c := by
  cases counting with
  | bytes => exact c.utf8Size_pos
  | units16 => simp only [Counting.size]; split <;> omega

/-- The largest number that a field can hold. -/
def maxWord : Nat := 0xFFFF_FFFF_FFFF_FFFF

/-- A place in a text: the line, the column in it, and the offset from the start of the text, all
counted from zero. -/
structure Position where
  line : Nat
  column : Nat
  offset : Nat
  deriving DecidableEq, Repr, Inhabited

namespace Position

/-- The start of a text. -/
def start : Position := ⟨0, 0, 0⟩

/-- The position behind `c`, whatever numbers that takes; a newline leads to the first column of the
next line. -/
def advance (counting : Counting) (p : Position) (c : Char) : Position :=
  if c = '\n' then ⟨p.line + 1, 0, p.offset + counting.size c⟩
  else ⟨p.line, p.column + counting.size c, p.offset + counting.size c⟩

/-- The position behind a stretch of text. -/
def advanceBy (counting : Counting) (p : Position) (cs : List Char) : Position :=
  cs.foldl (advance counting) p

/-- The position behind a text. -/
def after (counting : Counting) (cs : List Char) : Position :=
  start.advanceBy counting cs

/-- The position `c` before this one on the same line; it does not go below the first column or
the start of the text. -/
def before (counting : Counting) (p : Position) (c : Char) : Position :=
  ⟨p.line, p.column - counting.size c, p.offset - counting.size c⟩

/-- Why a position cannot be moved. -/
inductive StepError where
  /-- A field would go beyond the largest number that it can hold. -/
  | overflow
  /-- Nothing says how long the line in front of a newline is. -/
  | overNewline
  deriving DecidableEq, Repr

def StepError.message : StepError → String
  | .overflow => "attempt to add with overflow"
  | .overNewline => "cannot subtract newline from position"

/-- Adds to a field. -/
def addToField (n size : Nat) : Except StepError Nat :=
  if n + size ≤ maxWord then .ok (n + size) else .error .overflow

/-- Steps over one character. -/
def stepForward (counting : Counting) (p : Position) (c : Char) : Except StepError Position := do
  let size := counting.size c
  if c = '\n' then
    let line ← addToField p.line 1
    let offset ← addToField p.offset size
    pure ⟨line, 0, offset⟩
  else
    let column ← addToField p.column size
    let offset ← addToField p.offset size
    pure ⟨p.line, column, offset⟩

/-- Steps over characters, taken from the left. -/
def stepForwardBy (counting : Counting) (p : Position) (cs : List Char) :
    Except StepError Position :=
  cs.foldlM (stepForward counting) p

/-- Steps back over one character. -/
def stepBack (counting : Counting) (p : Position) (c : Char) : Except StepError Position :=
  if c = '\n' then .error .overNewline else .ok (p.before counting c)

/-- Steps back over characters, taken from the left. -/
def stepBackBy (counting : Counting) (p : Position) (cs : List Char) :
    Except StepError Position :=
  cs.foldlM (stepBack counting) p

/-- Positions are ordered by line, then column, then offset. -/
def order (p q : Position) : Ordering :=
  (compare p.line q.line).then ((compare p.column q.column).then (compare p.offset q.offset))

/-- Line and column as a reader counts them, from one. -/
def display (p : Position) : String :=
  toString (p.line + 1) ++ ":" ++ toString (p.column + 1)

@[simp] theorem advanceBy_nil (counting : Counting) (p : Position) :
    p.advanceBy counting [] = p := rfl

@[simp] theorem advanceBy_cons (counting : Counting) (p : Position) (c : Char) (cs : List Char) :
    p.advanceBy counting (c :: cs) = (p.advance counting c).advanceBy counting cs := rfl

@[simp] theorem stepForwardBy_nil (counting : Counting) (p : Position) :
    p.stepForwardBy counting [] = .ok p := rfl

@[simp] theorem stepForwardBy_cons (counting : Counting) (p : Position) (c : Char)
    (cs : List Char) : p.stepForwardBy counting (c :: cs) =
      (p.stepForward counting c >>= fun q => q.stepForwardBy counting cs) :=
  List.foldlM_cons

theorem advanceBy_append (counting : Counting) (p : Position) (u v : List Char) :
    p.advanceBy counting (u ++ v) = (p.advanceBy counting u).advanceBy counting v :=
  List.foldl_append

end Position

/-- Places are measured by positions. -/
def Counting.meter (counting : Counting) : Meter Position :=
  ⟨.start, Position.advance counting, Position.before counting⟩

end Diagram
