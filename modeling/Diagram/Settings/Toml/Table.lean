/-!
TOML values, and how tables grow while a document is read. A document is a list of lines, each a
table header or a key with its value, which are entered into the root table one after the other.
Entering fails where a name is defined twice.
-/
namespace Diagram.Toml

/-- How a table came about, which decides what may be added to it. -/
inductive Origin where
  /-- Named on the way to another table in a header. -/
  | implied
  /-- Named by a header. -/
  | header
  /-- Named on the way to another key in a dotted key. -/
  | dotted
  /-- Written in braces. -/
  | inlined
  deriving DecidableEq, Repr

inductive Value where
  | boolean (value : Bool)
  | integer (value : Int)
  /-- A number that is not an integer; all that is known of it is whether a double can hold it. -/
  | float (fits : Bool)
  | text (value : String)
  /-- A date, a time of day, or both. -/
  | moment
  | array (elements : List Value)
  /-- Tables that share one header, latest first. -/
  | tables (tables : List (List (String × Value)))
  | table (origin : Origin) (members : List (String × Value))

abbrev Members := List (String × Value)

/-! ## Numbers within bounds -/

/-- The integers from -2^127 up to 2^128 - 1. -/
def fitsInteger (n : Int) : Bool :=
  -0x8000_0000_0000_0000_0000_0000_0000_0000 ≤ n && n ≤ 0xFFFF_FFFF_FFFF_FFFF_FFFF_FFFF_FFFF_FFFF

mutual

/-- No number in the value is too large. -/
def Value.fits : Value → Bool
  | .integer n => fitsInteger n
  | .float fits => fits
  | .array elements => Value.allFit elements
  | .tables ts => Value.tablesFit ts
  | .table _ members => Value.membersFit members
  | .boolean _ | .text _ | .moment => true

def Value.allFit : List Value → Bool
  | [] => true
  | v :: vs => v.fits && Value.allFit vs

def Value.membersFit : List (String × Value) → Bool
  | [] => true
  | (_, v) :: members => v.fits && Value.membersFit members

def Value.tablesFit : List (List (String × Value)) → Bool
  | [] => true
  | members :: ts => Value.membersFit members && Value.tablesFit ts

end

/-! ## Members -/

/-- The value of a name. -/
def find (name : String) : Members → Option Value
  | [] => none
  | (n, v) :: members => if n = name then some v else find name members

/-- Changes the value of a name, or adds it at the end. -/
def put (name : String) (value : Value) : Members → Members
  | [] => [(name, value)]
  | (n, v) :: members =>
    if n = name then (n, value) :: members else (n, v) :: put name value members

/-! ## Entering keys and headers -/

/-- Enters a value under a dotted key. The way there leads through tables that are implied or come
from dotted keys, and through the last of the tables that share a header; the table that it ends in
has to come from dotted keys. -/
def enter (value : Value) : List String → Members → Option Members
  | [], _ => none
  | [name], members =>
    match find name members with
    | none => some (put name value members)
    | some _ => none
  | name :: next :: rest, members =>
    match find name members with
    | none =>
      (enter value (next :: rest) []).map fun inner => put name (.table .dotted inner) members
    | some (.table .dotted inner) =>
      (enter value (next :: rest) inner).map fun inner => put name (.table .dotted inner) members
    | some (.table .implied inner) =>
      if rest.isEmpty then none
      else
        (enter value (next :: rest) inner).map fun inner =>
          put name (.table .implied inner) members
    | some (.tables (last :: others)) =>
      if rest.isEmpty then none
      else
        (enter value (next :: rest) last).map fun last =>
          put name (.tables (last :: others)) members
    | some _ => none

/-- Changes the members of the table that a header names. -/
def within (change : Members → Option Members) : List String → Members → Option Members
  | [], members => change members
  | name :: rest, members =>
    match find name members with
    | some (.table origin inner) =>
      if origin = .inlined then none
      else (within change rest inner).map fun inner => put name (.table origin inner) members
    | some (.tables (last :: others)) =>
      (within change rest last).map fun last => put name (.tables (last :: others)) members
    | some _ => none
    | none => (within change rest []).map fun inner => put name (.table .implied inner) members

/-- Opens the table that a header names. -/
def openTable (name : String) (members : Members) : Option Members :=
  match find name members with
  | none => some (put name (.table .header []) members)
  | some (.table .implied inner) => some (put name (.table .header inner) members)
  | some _ => none

/-- Opens one more of the tables that share a header. -/
def openTables (name : String) (members : Members) : Option Members :=
  match find name members with
  | none => some (put name (.tables [[]]) members)
  | some (.tables ts) => some (put name (.tables ([] :: ts)) members)
  | some _ => none

/-- What a line of a document says. -/
inductive Statement where
  | table (path : List String)
  | tables (path : List String)
  | pair (key : List String) (value : Value)

/-- A document as far as it has been entered, and the table that keys are entered into. -/
structure Document where
  root : Members
  current : List String

def Document.enter (d : Document) : Statement → Option Document
  | .table path => do
    let name ← path.getLast?
    pure ⟨← within (openTable name) path.dropLast d.root, path⟩
  | .tables path => do
    let name ← path.getLast?
    pure ⟨← within (openTables name) path.dropLast d.root, path⟩
  | .pair key value => do
    pure ⟨← within (Toml.enter value key) d.current d.root, d.current⟩

end Diagram.Toml
