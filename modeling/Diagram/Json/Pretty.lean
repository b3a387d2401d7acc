import Diagram.Json.Basic

/-!
The printed form of JSON values: two spaces for each level, every element and member on a line of
its own.
-/
namespace Diagram.Json

/-- One character of a text between double quotes. -/
def printedChar (c : Char) : List Char :=
  if c = '"' || c = '\\' then ['\\', c]
  else if c = '\x08' then ['\\', 'b']
  else if c = '\x0c' then ['\\', 'f']
  else if c = '\n' then ['\\', 'n']
  else if c = '\r' then ['\\', 'r']
  else if c = '\t' then ['\\', 't']
  else if c.toNat < 0x20 then
    ['\\', 'u', '0', '0', Nat.digitChar (c.toNat / 16), Nat.digitChar (c.toNat % 16)]
  else [c]

def printedText (s : String) : String :=
  String.ofList ('"' :: s.toList.flatMap printedChar ++ ['"'])

/-- The start of a line inside `level` brackets. -/
def newLine (level : Nat) : String :=
  String.ofList ('\n' :: List.replicate (2 * level) ' ')

/-- Lines of elements or members between two brackets. -/
def bracketed (opening closing : String) (level : Nat) : List String → String
  | [] => opening ++ closing
  | parts =>
    opening ++ newLine (level + 1) ++ ("," ++ newLine (level + 1)).intercalate parts ++
      newLine level ++ closing

mutual

/-- The printed form of a value inside `level` brackets. -/
def printedAt (level : Nat) : Json → String
  | .null => "null"
  | .boolean value => if value then "true" else "false"
  | .integer n => toString n
  | .decimal digits => digits
  | .text s => printedText s
  | .array elements => bracketed "[" "]" level (printedElements (level + 1) elements)
  | .object members => bracketed "\x7b" "\x7d" level (printedMembers (level + 1) members)

def printedElements (level : Nat) : List Json → List String
  | [] => []
  | j :: js => printedAt level j :: printedElements level js

def printedMembers (level : Nat) : List (String × Json) → List String
  | [] => []
  | (name, j) :: members =>
    (printedText name ++ ": " ++ printedAt level j) :: printedMembers level members

end

/-- The printed form of a value. -/
def pretty (j : Json) : String := printedAt 0 j

end Diagram.Json
