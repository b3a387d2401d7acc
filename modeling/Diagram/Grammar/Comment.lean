import Diagram.Grammar.Basic

/-!
The grammar of line comments: runs of lines that start with `#`.
-/
namespace Diagram.Grammar

variable {π : Type}

/-- Reads one character of a comment line; `first` holds before any has been read, and the text is
gathered latest first. A space in front of the text does not belong to it. -/
def commentCharacter : Bool × List Char → Grammar π (Next (Bool × List Char))
  | (first, text) => do
    match ← peek with
    | none => pure (.stop (first, text))
    | some c =>
      if c = '\n' then do
        retreat
        pure (.stop (first, text))
      else do
        accept
        pure (.again (false, if first && c = ' ' then text else c :: text))

/-- Reads what follows a `#` on its line. -/
def commentLine (text : List Char) : Grammar π (List Char) := do
  return (← repeating commentCharacter (true, text)).2

/-- Reads one more line of a comment if it follows without an empty line between. -/
def nextCommentLine (text : List Char) : Grammar π (Next (List Char)) := do
  match ← peekVisible with
  | none => pure (.stop text)
  | some (c, newlines) =>
    if c != '#' || 2 ≤ newlines then do
      retreat
      pure (.stop text)
    else do
      accept
      return .again (← commentLine (if newlines = 1 then '\n' :: text else text))

/-- Reads a comment behind its first `#`. -/
def comment : Grammar π (Comment (Span π)) := do
  let start ← placeOf '#'
  let text ← commentLine []
  let text ← repeating nextCommentLine text
  return ⟨⟨start, ← here⟩, String.ofList text.reverse⟩

end Diagram.Grammar
