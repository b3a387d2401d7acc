import Diagram.Chars.Blank
import Diagram.Position

/-!
Reading a source one character at a time, with lookahead.

`Reader.read` consumes a character. `Reader.peek` looks at the next one without consuming it; what
has been looked at is then consumed by `Reader.accept` or left unread by `Reader.retreat`.
`Reader.putBack` undoes the consumption of the last character. Looking or reading beyond the end
gives up the lookahead. A source that has ended or failed is not asked again.

A reader keeps the places it has come to as its meter measures them: behind what it has consumed,
behind what it has looked at and behind what the source has delivered. It also notes the first
`Breach` of its rules, so that "the grammar keeps them" is a statement about the reader it leaves
behind.
-/
namespace Diagram

/-- What a source delivers: a character, or the reason why it failed. -/
abbrev Delivery := Except String Char

/-- The characters that a source delivers before it ends or fails. -/
def delivered : List Delivery → List Char
  | .ok c :: rest => c :: delivered rest
  | .error _ :: _ | [] => []

/-- The deliveries of a text that is held in memory. -/
def deliveries (cs : List Char) : List Delivery :=
  cs.map .ok

theorem delivered_deliveries (cs : List Char) : delivered (deliveries cs) = cs := by
  induction cs with
  | nil => rfl
  | cons c cs ih => simpa [deliveries, delivered] using ih

/-- Something that the grammar never does. -/
inductive Breach where
  /-- A character was consumed while others were looked at. -/
  | readOverLookahead
  /-- A character was put back that is not the last one consumed. -/
  | foreignPutBack
  /-- A place was stepped back over a newline. -/
  | newlineStepBack
  /-- A level was left where none had been entered. -/
  | depthUnderflow
  /-- A bracket was closed in a skipped container where none was open. -/
  | nestingUnderflow
  /-- A repetition went on without consuming a character. -/
  | noProgress
  /-- A value or a map was read inside the parentheses of an edge group. -/
  | valueInGroup
  /-- A value was wanted deeper than containers may be inside each other. -/
  | valueTooDeep
  deriving DecidableEq, Repr

structure Reader (π : Type) where
  meter : Meter π
  /-- The characters consumed, latest first. -/
  past : List Char
  /-- The characters looked at, latest first. -/
  looked : List Char
  /-- The characters delivered beyond those looked at. -/
  queued : List Char
  /-- What the source has yet to deliver. -/
  source : List Delivery
  /-- The source has ended or failed. -/
  ended : Bool
  /-- Why the source failed. -/
  failure : Option String
  /-- The place behind what has been consumed. -/
  place : π
  /-- The place behind what has been looked at. -/
  lookedPlace : π
  /-- The place behind what has been delivered. -/
  reach : π
  /-- An upper bound for the characters not consumed yet. -/
  left : Nat
  breach : Option Breach

namespace Reader

variable {π : Type}

/-- A reader at the start of a source. -/
def ofSource (meter : Meter π) (source : List Delivery) : Reader π :=
  ⟨meter, [], [], [], source, false, none, meter.start, meter.start, meter.start, source.length,
    none⟩

/-- Notes a breach, unless there is one already. -/
def note (breach : Breach) (r : Reader π) : Reader π :=
  { r with breach := r.breach.or (some breach) }

/-- Leaves unread what has been looked at. -/
def retreat (r : Reader π) : Reader π :=
  { r with looked := [], queued := r.looked.reverse ++ r.queued, lookedPlace := r.place }

/-- Consumes what has been looked at. -/
def accept (r : Reader π) : Reader π :=
  { r with
    past := r.looked ++ r.past, looked := [], place := r.lookedPlace,
    left := r.left - r.looked.length }

/-- Takes a character that is next in the queue or has just been delivered into what is
consumed. -/
def consume (c : Char) (r : Reader π) : Reader π :=
  { r with
    past := c :: r.past, place := r.meter.advance r.place c,
    lookedPlace := r.meter.advance r.place c, left := r.left - 1 }

/-- Takes a character that is next in the queue or has just been delivered into what is looked
at. -/
def lookAt (c : Char) (r : Reader π) : Reader π :=
  { r with looked := c :: r.looked, lookedPlace := r.meter.advance r.lookedPlace c }

/-- Asks the source for a character. -/
def pull (r : Reader π) : Option Char × Reader π :=
  if r.ended then (none, r)
  else match r.source with
    | [] => (none, { r with ended := true })
    | .error reason :: rest =>
      (none, { r with source := rest, ended := true, failure := some reason })
    | .ok c :: rest => (some c, { r with source := rest, reach := r.meter.advance r.reach c })

/-- Takes the next character from the queue, or from the source if the queue is empty. -/
def next (r : Reader π) : Option Char × Reader π :=
  match r.queued with
  | c :: rest => (some c, { r with queued := rest })
  | [] => r.pull

/-- Consumes the next character. -/
def read (r : Reader π) : Option Char × Reader π :=
  let r := if r.looked.isEmpty then r else (r.note .readOverLookahead).retreat
  match r.next with
  | (some c, r) => (some c, r.consume c)
  | (none, r) => (none, r.retreat)

/-- Looks at the next character. -/
def peek (r : Reader π) : Option Char × Reader π :=
  match r.next with
  | (some c, r) => (some c, r.lookAt c)
  | (none, r) => (none, r.retreat)

/-- Looks at the next `n` characters. -/
def peekMany : Nat → Reader π → Option (List Char) × Reader π
  | 0, r => (some [], r)
  | n + 1, r =>
    match r.peek with
    | (none, r) => (none, r)
    | (some c, r) =>
      match r.peekMany n with
      | (none, r) => (none, r)
      | (some cs, r) => (some (c :: cs), r)

/-- Consumes at most `n` characters, up to the first that is not blank. -/
def readVisibleWithin : Nat → Reader π → Option Char × Reader π
  | 0, r => (none, r)
  | n + 1, r =>
    match r.read with
    | (none, r) => (none, r)
    | (some c, r) => if isBlank c then r.readVisibleWithin n else (some c, r)

/-- Consumes characters up to the first that is not blank. -/
def readVisible (r : Reader π) : Option Char × Reader π :=
  r.readVisibleWithin (r.left + 1)

/-- Looks at no more than `n` characters, up to the first that is not blank; `newlines` have been
passed already. -/
def peekVisibleWithin : Nat → Nat → Reader π → Option (Char × Nat) × Reader π
  | 0, _, r => (none, r)
  | n + 1, newlines, r =>
    match r.peek with
    | (none, r) => (none, r)
    | (some c, r) =>
      if isBlank c then
        r.peekVisibleWithin n (if c = '\n' then newlines + 1 else newlines)
      else (some (c, newlines), r)

/-- Looks at characters up to the first that is not blank, which is given with the number of
newlines in front of it. -/
def peekVisible (r : Reader π) : Option (Char × Nat) × Reader π :=
  r.peekVisibleWithin (r.left + 1) 0

/-- Notes a breach if a place is to be stepped back over `c` and `c` is a newline. -/
def checkStepBack (c : Char) (r : Reader π) : Reader π :=
  if c = '\n' then r.note .newlineStepBack else r

/-- Puts the last character back in front of what is unread. -/
def putBack (c : Char) (r : Reader π) : Reader π :=
  let r := r.retreat
  let r := if r.past.head? = some c then r else r.note .foreignPutBack
  let r := r.checkStepBack c
  { r with
    past := r.past.tail, queued := c :: r.queued, place := r.meter.before r.place c,
    lookedPlace := r.meter.before r.place c, left := r.left + 1 }

end Reader

end Diagram
