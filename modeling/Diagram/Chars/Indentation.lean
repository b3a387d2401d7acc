import Diagram.Chars.Blank
import Diagram.Chars.Lines

/-!
The indentation of block text. Block strings and block comments are written indented to fit their
surroundings; `dedent` removes the indentation that all their lines share, and the blank last line
that the closing delimiter stands on.
-/
namespace Diagram

/-- The columns a blank takes at the start of a line: two for a tab, otherwise as many as it has
bytes. -/
def indentSize (c : Char) : Nat :=
  if c = '\t' then 2 else c.utf8Size

/-- The columns of the blanks that a line starts with. -/
def indentation : List Char → Nat
  | [] => 0
  | c :: cs => if isBlank c then indentSize c + indentation cs else 0

/-- A line without the blanks at its start, up to the first that makes `columns` or more. -/
def dropColumns (columns : Nat) : List Char → List Char
  | [] => []
  | c :: cs =>
    if columns = 0 then c :: cs
    else if isBlank c then dropColumns (columns - indentSize c) cs
    else c :: cs

/-- A line with something on it, and nothing before that. -/
def isFlush (line : List Char) : Bool :=
  !line.isEmpty && indentation line == 0

/-- The smallest indentation among the lines that are not blank. -/
def commonIndentation (ls : List (List Char)) : Option Nat :=
  ((ls.filter fun line => !line.all isBlank).map indentation).min?

/-- Removes the indentation that all lines share. One line that is not indented keeps every line
as it is; lines of blanks alone have no say in how much is removed. -/
def trimCommonIndentation (cs : List Char) : List Char :=
  let ls := lines cs
  if ls.any isFlush then cs
  else match commonIndentation ls with
    | none => cs
    | some columns => unlines (ls.map (dropColumns columns))

/-- Removes the blanks at the end of the last line, and the line too if nothing is left of it and
it is not the only one. -/
def trimLastLine (cs : List Char) : List Char :=
  match cutLast '\n' cs with
  | none => trimEnd cs
  | some (before, last) =>
    let last := trimEnd last
    if last.isEmpty then before else before ++ '\n' :: last

/-- The text of a block, without its last line's blanks and without the indentation its lines
share. -/
def dedent (cs : List Char) : List Char :=
  trimCommonIndentation (trimLastLine cs)

end Diagram
