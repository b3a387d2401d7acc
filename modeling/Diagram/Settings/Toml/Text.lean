import Diagram.Number.Literal

/-!
What stands between the parts of a TOML document, and its strings. A string may have escapes or
none, and stand on one line or run over several.
-/
namespace Diagram.Toml

/-! ## Blanks, comments and line ends -/

def isSpace (c : Char) : Bool := c = ' ' || c = '\t'

def skipSpace (cs : List Char) : List Char := cs.dropWhile isSpace

/-- A control character, which may stand nowhere but in escapes. -/
def isControl (c : Char) : Bool :=
  (c.toNat < 0x20 && c != '\t') || c.toNat = 0x7F

/-- What follows a comment, which ends in front of a line end. -/
def skipComment : List Char → Option (List Char)
  | '#' :: cs =>
    let rest := cs.dropWhile fun c => !isControl c
    match rest with
    | [] | '\n' :: _ | '\r' :: '\n' :: _ => some rest
    | _ => none
  | cs => some cs

/-- What follows the end of a line, or nothing at the end of the document. -/
def skipLineEnd (cs : List Char) : Option (List Char) := do
  match ← skipComment (skipSpace cs) with
  | [] => some []
  | '\n' :: rest | '\r' :: '\n' :: rest => some rest
  | _ => none

/-- What follows blanks, comments and line ends, of which there are at most `fuel`. -/
def skipBetween : (fuel : Nat) → List Char → Option (List Char)
  | 0, cs => some cs
  | fuel + 1, cs => do
    match ← skipComment (skipSpace cs) with
    | '\n' :: rest | '\r' :: '\n' :: rest => skipBetween fuel rest
    | rest => some rest

/-! ## Strings -/

/-- The character with a code in hexadecimal digits. -/
def charOfHex? (digits : List Char) : Option Char := do
  let n ← naturalValue? 16 digits
  if n.isValidChar then some (Char.ofNat n) else none

/-- The character that an escape stands for, and what follows it. -/
def escape? : List Char → Option (Char × List Char)
  | 'b' :: cs => some ('\x08', cs)
  | 't' :: cs => some ('\t', cs)
  | 'n' :: cs => some ('\n', cs)
  | 'f' :: cs => some ('\x0c', cs)
  | 'r' :: cs => some ('\r', cs)
  | 'e' :: cs => some ('\x1b', cs)
  | '"' :: cs => some ('"', cs)
  | '\\' :: cs => some ('\\', cs)
  | 'x' :: cs => coded 2 cs
  | 'u' :: cs => coded 4 cs
  | 'U' :: cs => coded 8 cs
  | _ => none
where
  coded (length : Nat) (cs : List Char) : Option (Char × List Char) := do
    if cs.length < length then none else pure (← charOfHex? (cs.take length), cs.drop length)

/-- The text of a string on one line, behind its first quote, and what follows it. -/
def quoted (quote : Char) : (fuel : Nat) → List Char → Option (List Char × List Char)
  | 0, _ | _, [] => none
  | fuel + 1, c :: cs =>
    if c = quote then some ([], cs)
    else if c = '\\' && quote = '"' then do
      let (c, cs) ← escape? cs
      let (text, rest) ← quoted quote fuel cs
      pure (c :: text, rest)
    else if isControl c then none
    else do
      let (text, rest) ← quoted quote fuel cs
      pure (c :: text, rest)

/-- The quotes at the end of a string over several lines: those beyond three belong to it. -/
def closingQuotes (quote : Char) (cs : List Char) : Option (List Char × List Char) :=
  let quotes := cs.takeWhile (· = quote)
  let n := quotes.length
  if n < 3 then none else
    let extra := min (n - 3) 2
    some (List.replicate extra quote, cs.drop (extra + 3))

/-- What follows blanks and line ends. -/
def skipLines : List Char → List Char
  | '\r' :: '\n' :: cs => skipLines cs
  | c :: cs => if isSpace c || c = '\n' then skipLines cs else c :: cs
  | [] => []

/-- The text of a string over several lines, behind its first quotes, and what follows it. -/
def quotedLines (quote : Char) : (fuel : Nat) → List Char → Option (List Char × List Char)
  | 0, _ | _, [] => none
  | fuel + 1, c :: cs =>
    match closingQuotes quote (c :: cs) with
    | some closed => some closed
    | none =>
      if c = '\\' && quote = '"' then
        match skipSpace cs with
        | '\n' :: rest | '\r' :: '\n' :: rest =>
          quotedLines quote fuel (skipLines rest)
        | _ => do
          let (c, cs) ← escape? cs
          let (text, rest) ← quotedLines quote fuel cs
          pure (c :: text, rest)
      else if isControl c && c != '\n' && !(c = '\r' && cs.head? = some '\n') then none
      else do
        let (text, rest) ← quotedLines quote fuel cs
        pure (c :: text, rest)

/-- A string in any of its forms, and what follows it. -/
def string? (cs : List Char) : Option (String × List Char) := do
  let (text, rest) ← match cs with
    | '"' :: '"' :: '"' :: rest => quotedLines '"' (rest.length + 1) (skipFirst rest)
    | '\'' :: '\'' :: '\'' :: rest => quotedLines '\'' (rest.length + 1) (skipFirst rest)
    | '"' :: rest => quoted '"' (rest.length + 1) rest
    | '\'' :: rest => quoted '\'' (rest.length + 1) rest
    | _ => none
  pure (String.ofList text, rest)
where
  /-- A line end right behind the first quotes does not belong to the text. -/
  skipFirst : List Char → List Char
    | '\n' :: rest | '\r' :: '\n' :: rest => rest
    | rest => rest

end Diagram.Toml
