import Diagram.Grammar.Block

/-!
The grammar of texts, key paths and substitutions. A text is unquoted, double quoted, single quoted
or a block. In a value, unquoted and double quoted texts may hold substitutions; in a key, unquoted
text ends earlier and nothing is substituted.
-/
namespace Diagram.Grammar

variable {π : Type}

/-! ## Literal text and its written form -/

/-- The character that an escape stands for. -/
def escapeValue : Char → Char
  | 'a' => '\x07'
  | 'b' => '\x08'
  | 'f' => '\x0c'
  | 'n' => '\n'
  | 'r' => '\r'
  | 't' => '\t'
  | 'v' => '\x0b'
  | c => c

/-- The pieces of a text as far as it has been read, latest first; `value` and `raw` are what the
literal at the end stands for and how it is written. -/
structure Gathered (π : Type) where
  pieces : List (Piece (Span π))
  value : List Char
  raw : List Char

namespace Gathered

/-- Nothing has been read. -/
def empty : Gathered π := ⟨[], [], []⟩

/-- A character that stands for itself. -/
def push (c : Char) (g : Gathered π) : Gathered π :=
  { g with value := c :: g.value, raw := c :: g.raw }

/-- A character behind a backslash. -/
def pushEscape (c : Char) (g : Gathered π) : Gathered π :=
  { g with value := escapeValue c :: g.value, raw := c :: '\\' :: g.raw }

/-- Closes the literal at the end; one that stands for nothing is left out. -/
def flush (g : Gathered π) : Gathered π :=
  if g.value.isEmpty then g
  else
    let value := String.ofList g.value.reverse
    let raw := String.ofList g.raw.reverse
    ⟨.literal value raw :: g.pieces, [], []⟩

def pushSubstitution (reference : Substitution (Span π)) (g : Gathered π) : Gathered π :=
  let g := g.flush
  { g with pieces := .substitution reference :: g.pieces }

/-- Drops the blanks at the end of the literal, in what it stands for and in how it is written. -/
def trimEnd (g : Gathered π) : Gathered π :=
  { g with value := g.value.dropWhile isBlank, raw := g.raw.dropWhile isBlank }

/-- The pieces in the order they are written. -/
def finish (g : Gathered π) : List (Piece (Span π)) :=
  g.flush.pieces.reverse

end Gathered

/-! ## Unquoted text -/

/-- What a text is part of. In a value, it may hold the substitutions that the given grammar reads
behind a dollar sign. -/
inductive Role (π : Type) where
  | key
  | value (substitution : Grammar π (Option (Substitution (Span π))))

/-- The text is part of a key. -/
def Role.isKey : Role π → Bool
  | .key => true
  | .value _ => false

/-- Reads a substitution behind a dollar sign, if one may stand there. -/
def Role.substitution? : Role π → Grammar π (Option (Substitution (Span π)))
  | .key => pure none
  | .value substitution => substitution

/-- A character that unquoted text ends in front of. -/
def endsUnquoted (role : Role π) (c : Char) : Bool :=
  c ∈ ['\n', ';', '#', '{', '}', '[', ']'] || (role.isKey && c ∈ [':', '.', '<', '>'])

/-- A character that may start a connection, with the character behind it. -/
def startsEdge (c next : Char) : Bool :=
  if c = '-' then next ∈ ['-', '>', '*'] else next = '-'

/-- A character behind a closing parenthesis that shows it to end an edge group. -/
def followsGroup (c : Char) : Bool :=
  c ∈ ['#', '{', '}', '[', ']', ':', '.']

/-- An unquoted text as far as it has been read, and the place behind its last visible character. -/
structure Unquoted (π : Type) where
  text : Gathered π
  stop : π

/-- Reads what follows a backslash that has been consumed. A backslash at the end of a line
continues the text on the next one. -/
def unquotedEscape (unquoted : Unquoted π) : Grammar π (Next (Unquoted π)) := do
  match ← read with
  | none => do
    reportToReach .unfinishedEscape (← placeOf '\\')
    pure (.stop unquoted)
  | some c =>
    if c = '\n' then
      match ← peekOnLine with
      | none => pure (.stop unquoted)
      | some next => do
        accept
        putBack next
        pure (.again unquoted)
    else do
      let stop ← here
      pure (.again ⟨unquoted.text.pushEscape c, stop⟩)

/-- Reads on behind a character of an unquoted text that has been consumed. -/
def unquotedBehind (role : Role π) (unquoted : Unquoted π) (c : Char) :
    Grammar π (Next (Unquoted π)) := do
  let behind ← here
  let stop := if isBlank c then unquoted.stop else behind
  match ← (if c = '$' then role.substitution? else pure none) with
  | some reference => do
    let stop ← here
    pure (.again ⟨unquoted.text.pushSubstitution reference, stop⟩)
  | none =>
    if c = '\\' then unquotedEscape ⟨unquoted.text, stop⟩
    else pure (.again ⟨unquoted.text.push c, stop⟩)

/-- Reads a closing parenthesis that has been looked at inside an edge group. In front of more text
it belongs to the text, and otherwise it ends the group. -/
def groupEnd (unquoted : Unquoted π) (c : Char) : Grammar π (Next (Unquoted π)) := do
  match ← peekOnLine with
  | none => pure (.stop unquoted)
  | some next => do
    retreat
    if followsGroup next then pure (.stop unquoted)
    else do
      let _ ← peek
      accept
      let stop ← here
      pure (.again ⟨unquoted.text.push c, stop⟩)

/-- Reads a dash or a star in a key that has been looked at. The text ends in front of one that
starts a connection. -/
def unquotedConnector (role : Role π) (unquoted : Unquoted π) (c : Char) :
    Grammar π (Next (Unquoted π)) := do
  match ← peek with
  | none => pure (.stop unquoted)
  | some next => do
    retreat
    if startsEdge c next then pure (.stop unquoted)
    else do
      let _ ← peek
      accept
      unquotedBehind role unquoted c

/-- Reads one character of an unquoted text, or finds its end. -/
def unquotedCharacter (role : Role π) (unquoted : Unquoted π) : Grammar π (Next (Unquoted π)) := do
  match ← peek with
  | none => pure (.stop unquoted)
  | some c =>
    if (← inGroup) && c = ')' then groupEnd unquoted c
    else if endsUnquoted role c then do
      retreat
      pure (.stop unquoted)
    else if role.isKey && (c = '-' || c = '*') then unquotedConnector role unquoted c
    else do
      accept
      unquotedBehind role unquoted c

/-- Reads an unquoted text. There is none if nothing but blanks stands there. -/
def unquotedText (role : Role π) : Grammar π (Option (Text (Span π))) := do
  let start ← here
  let unquoted ← repeating (unquotedCharacter role) ⟨.empty, start⟩
  let pieces := unquoted.text.trimEnd.finish
  if pieces.isEmpty then pure none
  else pure (some (.unquoted ⟨start, unquoted.stop⟩ pieces))

/-! ## Quoted text -/

/-- Reads what follows a backslash that has been consumed in a double quoted text. A backslash at
the end of a line continues the text on the next one. -/
def doubleQuotedEscape (start : π) (text : Gathered π) : Grammar π (Next (Gathered π)) := do
  match ← read with
  | none => do
    reportToReach .unfinishedEscape (← placeOf '\\')
    reportToReach .unterminatedDoubleQuoted start
    pure (.stop text)
  | some c => pure (.again (if c = '\n' then text else text.pushEscape c))

/-- Reads on behind a character of a double quoted text that has been consumed. -/
def doubleQuotedBehind (role : Role π) (start : π) (text : Gathered π) (c : Char) :
    Grammar π (Next (Gathered π)) := do
  match ← (if c = '$' then role.substitution? else pure none) with
  | some reference => pure (.again (text.pushSubstitution reference))
  | none =>
    if c = '"' then pure (.stop text)
    else if c = '\\' then doubleQuotedEscape start text
    else pure (.again (text.push c))

/-- Reads one character of a double quoted text, or finds its end. -/
def doubleQuotedCharacter (role : Role π) (start : π) (text : Gathered π) :
    Grammar π (Next (Gathered π)) := do
  match ← peek with
  | none => do
    reportToReach .unterminatedDoubleQuoted start
    pure (.stop text)
  | some c =>
    if c = '\n' then do
      retreat
      reportToHere .unterminatedDoubleQuoted start
      pure (.stop text)
    else do
      accept
      doubleQuotedBehind role start text c

/-- Reads a double quoted text behind its first quote. -/
def doubleQuotedText (role : Role π) : Grammar π (Text (Span π)) := do
  let start ← placeOf '"'
  let text ← repeating (doubleQuotedCharacter role start) .empty
  return .doubleQuoted ⟨start, ← here⟩ text.finish

/-- Reads on behind a quote in a single quoted text: a second quote stands for one in the text. -/
def singleQuote (text : List Char) : Grammar π (Next (List Char)) := do
  match ← peek with
  | none => pure (.stop text)
  | some c =>
    if c = '\'' then do
      accept
      pure (.again ('\'' :: text))
    else do
      retreat
      pure (.stop text)

/-- Reads on behind a backslash in a single quoted text: at the end of a line it continues the
text on the next one, and otherwise it stands for itself. -/
def singleQuotedBackslash (text : List Char) : Grammar π (Next (List Char)) := do
  match ← peek with
  | none => pure (.again text)
  | some c =>
    if c = '\n' then do
      accept
      pure (.again text)
    else do
      retreat
      pure (.again ('\\' :: text))

/-- Reads one character of a single quoted text, or finds its end. -/
def singleQuotedCharacter (start : π) (text : List Char) : Grammar π (Next (List Char)) := do
  match ← peek with
  | none => do
    reportToReach .unterminatedSingleQuoted start
    pure (.stop text)
  | some c =>
    if c = '\n' then do
      retreat
      reportToHere .unterminatedSingleQuoted start
      pure (.stop text)
    else do
      accept
      if c = '\'' then singleQuote text
      else if c = '\\' then singleQuotedBackslash text
      else pure (.again (c :: text))

/-- Reads a single quoted text behind its first quote. -/
def singleQuotedText : Grammar π (Text (Span π)) := do
  let start ← placeOf '\''
  let text ← repeating (singleQuotedCharacter start) []
  return .singleQuoted ⟨start, ← here⟩ (String.ofList text.reverse)

/-! ## Texts, paths and substitutions -/

/-- Reads a text in any of its forms from its first character, which has been consumed. -/
def textFrom (role : Role π) (c : Char) : Grammar π (Option (Text (Span π))) := do
  if c = '"' then return some (← doubleQuotedText role)
  else if c = '\'' then return some (← singleQuotedText)
  else if c = '|' then return some (← blockText)
  else do
    putBack c
    unquotedText role

/-- Reads a text in any of its forms. -/
def text (role : Role π) : Grammar π (Option (Text (Span π))) := do
  match ← peekOnLine with
  | none => pure none
  | some c => do
    accept
    textFrom role c

/-- Reads the point behind a segment of a key path; segments are gathered latest first. -/
def pathPoint (segments : List (Text (Span π))) : Grammar π (Next (List (Text (Span π)))) := do
  match ← peekOnLine with
  | none => pure (.stop segments)
  | some c =>
    if c = '.' then do
      accept
      pure (.again segments)
    else do
      retreat
      pure (.stop segments)

/-- Reads one segment of a key path and the point behind it. -/
def pathSegment (segments : List (Text (Span π))) : Grammar π (Next (List (Text (Span π)))) := do
  match ← peekOnLine with
  | none => pure (.stop segments)
  | some c => do
    retreat
    if c = '(' then pure (.stop segments)
    else
      match ← text .key with
      | none => pure (.stop segments)
      | some segment => pathPoint (segment :: segments)

/-- Reads a key path. -/
def path : Grammar π (Option (KeyPath (Span π))) := do
  let start ← here
  let segments ← repeating pathSegment []
  if segments.isEmpty then pure none
  else return some ⟨⟨start, ← here⟩, segments.reverse⟩

/-- Reads the closing brace of a substitution that starts at a place. -/
def substitutionEnd (start : π) : Grammar π Unit := do
  match ← peekVisible with
  | none => reportToReach .unterminatedSubstitution start
  | some (c, newlines) =>
    if c = '}' && newlines = 0 then accept
    else do
      retreat
      reportToHere .unterminatedSubstitution start

/-- Reads a substitution behind its dollar sign, which starts at a place. -/
def substitutionFrom (start : π) (spread : Bool) :
    Grammar π (Option (Substitution (Span π))) := do
  match ← peekOnLine with
  | none => pure none
  | some c =>
    if c != '{' then do
      retreat
      reportToReach .missingBrace start
      pure none
    else do
      accept
      let path ← path
      substitutionEnd start
      return some ⟨⟨start, ← here⟩, spread, (path.map KeyPath.segments).getD []⟩

/-- Reads a substitution behind its dollar sign; one that spreads has three points before it. -/
def substitution (spread : Bool) : Grammar π (Option (Substitution (Span π))) := do
  let start ← placeOf '$'
  let start ← beforeAll start (if spread then ['.', '.', '.'] else [])
  substitutionFrom start spread

/-- Reads a text that stands in a value. -/
def valueText : Grammar π (Option (Text (Span π))) :=
  text (.value (substitution false))

end Diagram.Grammar
