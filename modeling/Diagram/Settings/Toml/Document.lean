import Diagram.Settings.Toml.Text
import Diagram.Settings.Toml.Word

/-!
TOML documents: tables with headers, dotted keys, inline tables, arrays, strings, numbers, booleans,
dates and times. `read?` gives the members of the root table.
-/
namespace Diagram.Toml

/-- The arrays and inline tables that may be inside each other,
and the parts that a key may have. -/
def maxNesting : Nat := 80

/-! ## Keys -/

def isBareKey (c : Char) : Bool := c.isAlphanum || c = '_' || c = '-'

/-- One part of a key, and what follows it. -/
def keyPart? : List Char → Option (String × List Char)
  | '"' :: cs => do
    let (text, rest) ← quoted '"' (cs.length + 1) cs
    pure (String.ofList text, rest)
  | '\'' :: cs => do
    let (text, rest) ← quoted '\'' (cs.length + 1) cs
    pure (String.ofList text, rest)
  | cs =>
    let bare := cs.takeWhile isBareKey
    if bare.isEmpty then none else some (String.ofList bare, cs.dropWhile isBareKey)

/-- A dotted key of at most `n` parts, and what follows it and the blanks behind it. -/
def keyWithin? : (n : Nat) → List Char → Option (List String × List Char)
  | 0, _ => none
  | n + 1, cs => do
    let (part, rest) ← keyPart? (skipSpace cs)
    match skipSpace rest with
    | '.' :: rest => do
      let (parts, rest) ← keyWithin? n rest
      pure (part :: parts, rest)
    | rest => pure ([part], rest)

/-- A dotted key, and what follows it and the blanks behind it. -/
def key? (cs : List Char) : Option (List String × List Char) := keyWithin? maxNesting cs

/-! ## Values -/

mutual

/-- A value with at most `room` containers inside each other, and what follows it. -/
def value? : (fuel room : Nat) → List Char → Option (Value × List Char)
  | 0, _, _ => none
  | fuel + 1, room, cs =>
    match cs, room with
    | '"' :: _, _ | '\'' :: _, _ => do
      let (s, rest) ← string? cs
      pure (.text s, rest)
    | '[' :: rest, room + 1 => do
      let (elements, rest) ← elements? fuel room rest
      pure (.array elements, rest)
    | '{' :: rest, room + 1 => do
      let (members, rest) ← inlineMembers? fuel room [] rest
      pure (.table .inlined members, rest)
    | _, _ => do
      let (word, rest) := wordChars cs
      pure (← word? word, rest)

/-- The elements of an array up to its closing bracket, and what follows it. -/
def elements? : (fuel room : Nat) → List Char → Option (List Value × List Char)
  | 0, _, _ => none
  | fuel + 1, room, cs => do
    match ← skipBetween cs.length cs with
    | ']' :: rest => pure ([], rest)
    | cs => do
      let (v, rest) ← value? fuel room cs
      match ← skipBetween rest.length rest with
      | ',' :: rest => do
        let (vs, rest) ← elements? fuel room rest
        pure (v :: vs, rest)
      | ']' :: rest => pure ([v], rest)
      | _ => none

/-- The members of an inline table up to its closing brace, and what follows it. -/
def inlineMembers? :
    (fuel room : Nat) → Members → List Char → Option (Members × List Char)
  | 0, _, _, _ => none
  | fuel + 1, room, members, cs => do
    match ← skipBetween cs.length cs with
    | '}' :: rest => pure (members, rest)
    | cs => do
      let (key, rest) ← key? cs
      let '=' :: rest ← skipBetween rest.length rest | none
      let (v, rest) ← value? fuel room (← skipBetween rest.length rest)
      let members ← enter v key members
      match ← skipBetween rest.length rest with
      | ',' :: rest => inlineMembers? fuel room members rest
      | '}' :: rest => pure (members, rest)
      | _ => none

end

/-! ## Documents -/

/-- A statement, and what follows it on its line. -/
def statement? (cs : List Char) : Option (Statement × List Char) :=
  match cs with
  | '[' :: '[' :: rest => do
    let (path, rest) ← key? rest
    let ']' :: ']' :: rest := rest | none
    pure (.tables path, rest)
  | '[' :: rest => do
    let (path, rest) ← key? rest
    let ']' :: rest := rest | none
    pure (.table path, rest)
  | _ => do
    let (key, rest) ← key? cs
    let '=' :: rest := rest | none
    let (v, rest) ← value? (rest.length + 1) maxNesting (skipSpace rest)
    pure (.pair key v, rest)

/-- Enters the statements of a document, of which there are at most `fuel`. -/
def statements : (fuel : Nat) → Document → List Char → Option Document
  | 0, _, _ => none
  | fuel + 1, d, cs => do
    match skipSpace (← skipBetween cs.length cs) with
    | [] => pure d
    | cs => do
      let (statement, rest) ← statement? cs
      statements fuel (← d.enter statement) (← skipLineEnd rest)

/-- The members of the root table of a document. -/
def read? (cs : List Char) : Option Members := do
  let cs := match cs with
    | '\ufeff' :: rest => rest
    | _ => cs
  let d ← statements (cs.length + 1) ⟨[], []⟩ cs
  pure d.root

end Diagram.Toml
