import Diagram.Chars.Lines
import Diagram.Chars.Quoted
import Diagram.Range

/-!
The compact form of positions and ranges: `line:column:offset` and `label,start-stop`. A label may
hold any character; reading takes the last dash and the last comma before it as the separators.
-/
namespace Diagram

/-- Why a text is not the compact form of a position or a range. -/
inductive CompactError where
  /-- A position does not have three fields. -/
  | positionFields (text : String)
  /-- A field of a position is not a number below 2^64. -/
  | invalidNumber (field : String)
  /-- A range has no dash. -/
  | missingStop (text : String)
  /-- A range has no comma before its last dash. -/
  | missingStart (text : String)
  deriving DecidableEq, Repr

def CompactError.message : CompactError → String
  | .positionFields text => "expected three fields in position " ++ quotedText text
  | .invalidNumber field => "invalid number " ++ quotedText field ++ " in position"
  | .missingStop text => "missing end position in range " ++ quotedText text
  | .missingStart text => "missing start position in range " ++ quotedText text

/-- The value of a run of ASCII digits, most significant first. -/
def decimalValue (digits : List Char) : Nat :=
  digits.foldl (fun n d => 10 * n + (d.toNat - '0'.toNat)) 0

/-- A numeral: an optional plus sign and one or more ASCII digits, with a value below 2^64. -/
def numeral? (cs : List Char) : Option Nat :=
  let digits := match cs with
    | '+' :: digits => digits
    | _ => cs
  if digits.isEmpty || !digits.all Char.isDigit then none
  else if decimalValue digits ≤ maxWord then some (decimalValue digits) else none

namespace Position

/-- The compact form of a position. -/
def compact (p : Position) : String :=
  toString p.line ++ ":" ++ toString p.column ++ ":" ++ toString p.offset

/-- Reads a field of a compact position. -/
def field (cs : List Char) : Except CompactError Nat :=
  match numeral? cs with
  | some n => .ok n
  | none => .error (.invalidNumber (String.ofList cs))

/-- Reads the compact form of a position. -/
def ofCompact (cs : List Char) : Except CompactError Position :=
  match fields ':' cs with
  | [line, column, offset] => do
    let line ← field line
    let column ← field column
    let offset ← field offset
    pure ⟨line, column, offset⟩
  | _ => .error (.positionFields (String.ofList cs))

end Position

namespace Range

/-- The compact form of a range. -/
def compact (r : Range) : String :=
  r.label ++ "," ++ r.start.compact ++ "-" ++ r.stop.compact

/-- Reads the compact form of a range. -/
def ofCompact (s : String) : Except CompactError Range :=
  match cutLast '-' s.toList with
  | none => .error (.missingStop s)
  | some (rest, stop) =>
    match cutLast ',' rest with
    | none => .error (.missingStart s)
    | some (label, start) => do
      let start ← Position.ofCompact start
      let stop ← Position.ofCompact stop
      pure ⟨String.ofList label, start, stop⟩

end Range

end Diagram
