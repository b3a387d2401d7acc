import Diagram.Chars.Alphanumeric
import Diagram.Chars.Indentation
import Diagram.Grammar.Basic

/-!
The grammar of blocks: text that runs over lines up to a closing delimiter, and loses the
indentation its lines share. A block comment stands between triple quotes; the delimiters of a
block text are chosen by its writer.
-/
namespace Diagram.Grammar

variable {π : Type}

/-- How the line of an opening delimiter goes on. -/
inductive Opening where
  /-- It is blank, and what follows starts on the next line. -/
  | newLine
  /-- There is something on it. -/
  | sameLine
  /-- The source ends on it. -/
  | ended
  deriving DecidableEq, Repr

/-- Reads one blank of the line of an opening delimiter. -/
def openingBlank (_ : Opening) : Grammar π (Next Opening) := do
  match ← peek with
  | none => pure (.stop .ended)
  | some c =>
    if isBlank c then do
      accept
      pure (if c = '\n' then .stop .newLine else .again .sameLine)
    else do
      retreat
      pure (.stop .sameLine)

/-- Reads the blanks on the line of an opening delimiter. -/
def opening : Grammar π Opening :=
  repeating openingBlank .sameLine

/-- The content of a block as far as it has been read, latest character first. -/
structure Content where
  text : List Char
  /-- The closing delimiter has been read. -/
  closed : Bool

/-- Reads one character of a block that is closed by `first` and then `rest`. -/
def blockCharacter (first : Char) (rest : List Char) (content : Content) :
    Grammar π (Next Content) := do
  match ← read with
  | none => pure (.stop content)
  | some c =>
    if c != first then pure (.again { content with text := c :: content.text })
    else
      match ← peekMany rest.length with
      | none => pure (.stop content)
      | some seen =>
        if seen = rest then do
          accept
          pure (.stop { content with closed := true })
        else do
          retreat
          pure (.again { content with text := c :: content.text })

/-- Reads the content of a block up to its closing delimiter, which does not belong to it. -/
def blockContent (first : Char) (rest : List Char) (text : List Char) : Grammar π Content :=
  repeating (blockCharacter first rest) ⟨text, false⟩

/-- Reads the content of a block comment behind its opening quotes. -/
def commentContent : Grammar π Content := do
  match ← opening with
  | .ended => pure ⟨[], false⟩
  | .newLine | .sameLine => blockContent '"' ['"', '"'] []

/-- Reads a block comment behind its opening quotes, as a node. -/
def blockComment : Grammar π (Comment (Span π)) := do
  let start ← beforeAll (← here) ['"', '"', '"']
  let content ← nested commentContent
  whenever (!content.closed) (reportToReach .unterminatedBlockComment start)
  return ⟨⟨start, ← here⟩, String.ofList (dedent content.text.reverse)⟩

/-- A character that cannot stand in the delimiter of a block text. -/
def endsBlockQuote (c : Char) : Bool :=
  isBlank c || isAlphanumeric c || c = '_'

/-- Reads one character of a run that ends in front of a character with `stops`. The flag is set
when the source ends first. -/
def runCharacter (stops : Char → Bool) (run : List Char × Bool) :
    Grammar π (Next (List Char × Bool)) := do
  match ← peek with
  | none => pure (.stop (run.1, true))
  | some c =>
    if stops c then do
      retreat
      pure (.stop run)
    else do
      accept
      pure (.again (c :: run.1, false))

/-- Reads the characters in front of the first with `stops`, and tells whether there is none. -/
def runUntil (stops : Char → Bool) : Grammar π (List Char × Bool) := do
  let (run, ended) ← repeating (runCharacter stops) ([], false)
  pure (run.reverse, ended)

/-- What is read of a block text: the inner part of its delimiters, its tag and its content. -/
structure Block where
  quote : List Char
  tag : List Char
  content : Content

/-- The tag of a block text that is written without one. -/
def defaultTag : List Char := ['m', 'd']

/-- The columns that a line is indented by when it stands `depth` levels deep. -/
def indentOf (depth : Nat) : List Char :=
  List.replicate (2 * depth) ' '

/-- Reads the content of a block text behind `text`, up to its closing delimiter. -/
def textContentFrom (quote : List Char) (text : List Char) : Grammar π Content :=
  match quote with
  | [] => blockContent '|' [] text
  | first :: rest => blockContent first (rest ++ ['|']) text

/-- Reads the content of a block text behind its tag. Text on the line of the opening delimiter
counts as indented like the lines that follow. -/
def textContent (quote : List Char) : Grammar π Content := do
  match ← opening with
  | .ended => pure ⟨[], false⟩
  | .newLine => textContentFrom quote []
  | .sameLine => do textContentFrom quote (indentOf (← depth))

/-- Reads a block text behind its opening `|`. -/
def block : Grammar π Block := do
  let (quote, ended) ← runUntil endsBlockQuote
  if ended then pure ⟨quote, [], ⟨[], false⟩⟩
  else do
    let (tag, ended) ← runUntil isBlank
    if ended then pure ⟨quote, tag, ⟨[], false⟩⟩
    else do
      let content ← textContent quote
      pure ⟨quote, if tag.isEmpty then defaultTag else tag, content⟩

/-- Reads a block text behind its opening `|`, as a node. -/
def blockText : Grammar π (Text (Span π)) := do
  let start ← placeOf '|'
  let block ← nested block
  let quote := String.ofList block.quote
  whenever (!block.content.closed) (reportToReach (.unterminatedBlockText quote) start)
  return .block ⟨start, ← here⟩ quote (String.ofList block.tag)
    (String.ofList (dedent block.content.text.reverse))

end Diagram.Grammar
