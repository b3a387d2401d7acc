import Diagram.Grammar.Comment
import Diagram.Grammar.Edge
import Diagram.Number.Literal

/-!
The grammar of values and of the containers that hold them.

Maps and sequences hold values, and values may be maps and sequences. The grammars of containers
and keys therefore take the grammar of the values inside them, and `valueWithin` ties the knot.
Containers that are nested too deep are skipped.
-/
namespace Diagram.Grammar

variable {π : Type}

/-! ## Scalars -/

/-- Letters of a text that are equal up to ASCII case. -/
def isKeyword (keyword : String) (text : String) : Bool :=
  text.toList.map Char.toLower == keyword.toList

/-- An unquoted text in a value is null, a boolean or a number if it reads as one. -/
def scalarOf {ρ : Type} (t : Text ρ) : Scalar ρ :=
  match t with
  | .unquoted range [.literal text _] =>
    if isKeyword "null" text then .null range
    else if isKeyword "true" text then .boolean range true
    else if isKeyword "false" text then .boolean range false
    else
      match numberValue? text.toList with
      | some value => .number range text (.ofRat value)
      | none => .text t
  | _ => .text t

/-! ## Containers that are nested too deep -/

/-- Reads one character up to the bracket that closes `opening` of them. -/
def skipCharacter (opening closing : Char) (nesting : Nat) : Grammar π (Next Nat) := do
  match ← read with
  | none => pure (.stop nesting)
  | some c =>
    if c = opening then pure (.again (nesting + 1))
    else if c = closing then do
      whenever (nesting = 0) (note .nestingUnderflow)
      pure (if nesting - 1 = 0 then .stop 0 else .again (nesting - 1))
    else pure (.again nesting)

/-- Skips a container that starts at a place, behind its opening bracket, up to the closing bracket
that balances it. -/
def skipContainer (start : π) (opening closing : Char) (unterminated : Cause) :
    Grammar π Unit := do
  noteSkip start
  reportToHere .nestingTooDeep start
  let nesting ← repeating (skipCharacter opening closing) 1
  whenever (nesting != 0) (reportToReach unterminated start)

/-! ## What follows a node -/

/-- Reads one visible character, if it is on the line and does not end the node. -/
def trailingCharacter (closing : Char) (_ : Unit) : Grammar π (Next Unit) := do
  match ← peekOnLine with
  | none => pure (.stop ())
  | some c =>
    if c != ';' && c != closing && c != '#' then do
      accept
      pure (.again ())
    else do
      retreat
      pure (.stop ())

section

variable [DecidableEq π]

/-- Reads the rest of the line behind a node of the given type; it should be empty. Where there is
no node, the `fallback` says what is wrong with it. -/
def trailingText (typeName : Option String) (closing : Char) (fallback : Cause) :
    Grammar π Unit := do
  let start ← here
  repeating (trailingCharacter closing) ()
  let stop ← here
  whenever (start != stop) (report ((typeName.map Cause.textAfter).getD fallback) start stop)

end

/-! ## Keys -/

section

variable (value : Grammar π (Option (Value (Span π))))

/-- Reads the map behind a scalar on the same line, which is then the primary value of the key. -/
def mapBehind (key : Key (Span π)) (scalar : Scalar (Span π)) : Grammar π (Key (Span π)) := do
  match ← peekOnLine with
  | none => pure { key with value := some (.scalar scalar) }
  | some c =>
    if c = '{' then do
      accept
      putBack '{'
      return { key with primary := some scalar, value := ← value }
    else do
      retreat
      pure { key with value := some (.scalar scalar) }

/-- Reads the value of a key, behind the colon if there is one. -/
def valueOfKey (key : Key (Span π)) : Grammar π (Key (Span π)) := do
  match ← value with
  | none => do
    reportAtColon .missingValue (← here)
    pure { key with value := none }
  | some (.scalar scalar) => mapBehind value key scalar
  | some v => pure { key with value := some v }

/-- Reads what follows the name of a key: nothing, a colon and a value, or a map. -/
def keyValue (key : Key (Span π)) : Grammar π (Key (Span π)) := do
  match ← peekOnLine with
  | none => pure key
  | some c =>
    if c = '{' then do
      retreat
      if key.isNamed then valueOfKey value key else pure key
    else if c = ':' then do
      accept
      whenever (!key.isNamed) (reportToHere .valueWithoutKey key.range.start)
      valueOfKey value key
    else do
      retreat
      pure key

/-- What comes next on a line, as far as it is asked for. -/
inductive Behind where
  /-- The character asked for, which has been read. -/
  | found
  /-- Another visible character. -/
  | other
  /-- Nothing visible. -/
  | lineEnd
  deriving DecidableEq, Repr

/-- Reads a character if it is the next visible one on the line. -/
def acceptBehind (c : Char) : Grammar π Behind := do
  match ← peekOnLine with
  | none => pure .lineEnd
  | some next =>
    if next = c then do
      accept
      pure .found
    else do
      retreat
      pure .other

/-- Reads the path behind an edge group. Tells whether a value may follow. -/
def groupPath (key : Key (Span π)) : Grammar π (Key (Span π) × Bool) := do
  match ← acceptBehind '.' with
  | .lineEnd => pure (key, false)
  | .other => pure (key, true)
  | .found => return ({ key with edgePath := ← path }, true)

/-- Reads the index behind an edge group, and the path behind it. Tells whether a value may
follow. -/
def groupIndex (key : Key (Span π)) : Grammar π (Key (Span π) × Bool) := do
  match ← acceptBehind '[' with
  | .lineEnd => pure (key, false)
  | .other => groupPath key
  | .found => do groupPath { key with edgeIndex := ← edgeIndex }

/-- Reads an edge group behind its opening parenthesis, with the index and the path that may follow
it. Tells whether a value may follow too. -/
def groupParts (key : Key (Span π)) : Grammar π (Key (Span π) × Bool) := do
  let source ← path
  let edges ← edges source
  let key := { key with edges }
  match ← acceptBehind ')' with
  | .found => groupIndex key
  | .other | .lineEnd => do
    reportToHere .unterminatedEdgeGroup key.range.start
    pure (key, false)

/-- Reads an edge group behind its opening parenthesis, and the value behind it. -/
def edgeGroup (key : Key (Span π)) : Grammar π (Key (Span π)) := do
  setGroup true
  let (key, goesOn) ← groupParts key
  setGroup false
  if goesOn then keyValue value key else pure key

/-- Reads what follows the path that a key starts with. -/
def keyBehindPath (key : Key (Span π)) : Grammar π (Key (Span π)) := do
  match ← peekOnLine with
  | none => pure key
  | some c =>
    if c = '(' then do
      accept
      edgeGroup value key
    else if c = '<' || c = '>' || c = '-' then do
      retreat
      let edges ← edges key.path
      keyValue value { key with path := none, edges }
    else do
      retreat
      keyValue value key

/-- Reads the name and the value of a key behind the `&` it may start with. -/
def keyBehindAmpersand (key : Key (Span π)) : Grammar π (Key (Span π)) := do
  match ← peek with
  | none => pure key
  | some c =>
    if c = '(' then do
      accept
      edgeGroup value key
    else do
      retreat
      let path ← path
      keyBehindPath value { key with path }

/-- Reads the parts of a key. -/
def keyParts (key : Key (Span π)) : Grammar π (Key (Span π)) := do
  match ← peek with
  | none => pure key
  | some c =>
    if c = '&' then do
      accept
      keyBehindAmpersand value { key with ampersand := true }
    else do
      retreat
      keyBehindAmpersand value key

/-- Reads a key. There is none if nothing is named. -/
def key : Grammar π (Option (Key (Span π))) := do
  let start ← here
  let key ← keyParts value (.empty ⟨start, start⟩)
  let stop ← here
  if key.isNamed then pure (some { key with range := ⟨start, stop⟩ }) else pure none

/-! ## Maps and sequences -/

/-- What both kinds of container may hold besides keys or values. -/
inductive Remark (ρ : Type) where
  | comment (comment : Comment ρ)
  | blockComment (comment : Comment ρ)
  | substitution (reference : Substitution ρ)

/-- How a node of a container starts. -/
inductive Start (ρ : Type) where
  /-- With a remark, which has been read; a spread substitution may be malformed. -/
  | remark (remark : Option (Remark ρ))
  /-- With a key or a value, of which nothing has been read. -/
  | node

/-- Puts back a character that starts no remark. -/
def startNode (c : Char) : Grammar π (Start (Span π)) := do
  putBack c
  pure .node

/-- Reads a remark, if the character that has been read starts one. -/
def nodeStart (c : Char) : Grammar π (Start (Span π)) := do
  if c = '#' then return .remark (some (.comment (← comment)))
  else if c = '"' then do
    if ← acceptExactly ['"', '"'] then return .remark (some (.blockComment (← blockComment)))
    else startNode c
  else if c = '.' then do
    if ← acceptExactly ['.', '.', '$'] then
      return .remark ((← substitution true).map .substitution)
    else startNode c
  else startNode c

/-- The entry of a map that a remark makes. -/
def Remark.toEntry {ρ : Type} : Remark ρ → Entry ρ
  | .comment c => .comment c
  | .blockComment c => .blockComment c
  | .substitution s => .substitution s

/-- The item of a sequence that a remark makes. -/
def Remark.toItem {ρ : Type} : Remark ρ → Item ρ
  | .comment c => .comment c
  | .blockComment c => .blockComment c
  | .substitution s => .substitution s

/-- Reads an entry of a map from its first character, which has been read. -/
def entry (c : Char) : Grammar π (Option (Entry (Span π))) := do
  match ← nodeStart c with
  | .remark remark => pure (remark.map Remark.toEntry)
  | .node => return (← key value).map .key

/-- What an entry is called in front of text that should not follow it. -/
def leadingName {ρ : Type} : Entry ρ → String
  | .key ⟨_, _, _, _, _, _, _, some v⟩ => v.typeName
  | e => e.typeName

/-- Reports a map that is still open at the end of the source. -/
def reportOpenMap : (opened : Option π) → Grammar π Unit
  | some start => reportToReach .unterminatedMap start
  | none => pure ()

/-- Reports a closing brace where no map is open. -/
def reportStrayMapEnd : Grammar π Unit := do
  reportToHere .strayMapEnd (← placeOf '}')

/-- Reads an item of a sequence from its first character, which has been read. Where there is none,
one character is skipped. -/
def item (c : Char) : Grammar π (Option (Item (Span π))) := do
  match ← nodeStart c with
  | .remark remark => pure (remark.map Remark.toItem)
  | .node =>
    match ← value with
    | some v => pure (some (.value v))
    | none => do
      let start ← here
      let _ ← read
      reportToHere (.invalidItemStart c) start
      pure none

variable [DecidableEq π]

/-- Reads an entry of a map from its first character, which has been read, and the rest of its line.
Anything may follow a block comment. -/
def entryLine (entries : List (Entry (Span π))) (c : Char) :
    Grammar π (Next (List (Entry (Span π)))) := do
  match ← entry value c with
  | some (.blockComment b) => pure (.again (.blockComment b :: entries))
  | e => do
    trailingText (e.map leadingName) '}' .textBeforeKey
    pure (.again (e.toList ++ entries))

/-- Reads the next entry of a map from its first character, which has been read; a semicolon stands
between entries. The map starts at the place `opened`, or it is that of a whole file. -/
def mapStepFrom (opened : Option π) (entries : List (Entry (Span π))) (c : Char) :
    Grammar π (Next (List (Entry (Span π)))) := do
  if c = ';' then pure (.again entries)
  else if c = '}' then
    if opened.isSome then pure (.stop entries)
    else do
      reportStrayMapEnd
      pure (.again entries)
  else entryLine value entries c

/-- Reads the next entry of a map; entries are gathered latest first. -/
def mapStep (opened : Option π) (entries : List (Entry (Span π))) :
    Grammar π (Next (List (Entry (Span π)))) := do
  match ← readVisible with
  | none => do
    reportOpenMap opened
    pure (.stop entries)
  | some c => mapStepFrom value opened entries c

/-- Reads a map behind its opening brace, or skips it if it is nested too deep. -/
def map : Grammar π (Map (Span π)) := do
  outsideGroup
  let start ← placeOf '{'
  if ← atLimit then do
    skipContainer start '{' '}' .unterminatedMap
    return ⟨⟨start, ← here⟩, []⟩
  else do
    let entries ← nested (repeating (mapStep value (some start)) [])
    return ⟨⟨start, ← here⟩, entries.reverse⟩

/-- Reads the map of a whole file. -/
def fileMap : Grammar π (Map (Span π)) := do
  outsideGroup
  let start ← here
  let entries ← repeating (mapStep value none) []
  return ⟨⟨start, ← here⟩, entries.reverse⟩

/-- Reads an item of a sequence from its first character, which has been read, and the rest of its
line. Anything may follow a block comment. -/
def itemLine (items : List (Item (Span π))) (c : Char) :
    Grammar π (Next (List (Item (Span π)))) := do
  match ← item value c with
  | some (.blockComment b) => pure (.again (.blockComment b :: items))
  | i => do
    trailingText (i.map Item.typeName) ']' .textBeforeItem
    pure (.again (i.toList ++ items))

/-- Reads the next item of a sequence that starts at a place; items are gathered latest first. -/
def sequenceStep (start : π) (items : List (Item (Span π))) :
    Grammar π (Next (List (Item (Span π)))) := do
  match ← readVisible with
  | none => do
    reportToReach .unterminatedArray start
    pure (.stop items)
  | some c =>
    if c = ';' then pure (.again items)
    else if c = ']' then pure (.stop items)
    else itemLine value items c

/-- Reads a sequence behind its opening bracket, or skips it if it is nested too deep. -/
def sequence : Grammar π (Sequence (Span π)) := do
  let start ← placeOf '['
  if ← atLimit then do
    skipContainer start '[' ']' .unterminatedArray
    return ⟨⟨start, ← here⟩, []⟩
  else do
    let items ← nested (repeating (sequenceStep value start) [])
    return ⟨⟨start, ← here⟩, items.reverse⟩

end

/-! ## Values -/

variable [DecidableEq π]

/-- Reads a value from its first character, which has been consumed; the values inside a container
are read by `inner`. -/
def valueFrom (inner : Grammar π (Option (Value (Span π)))) (c : Char) :
    Grammar π (Option (Value (Span π))) := do
  if c = '[' then return some (.sequence (← sequence inner))
  else if c = '{' then return some (.map (← map inner))
  else do
    putBack c
    return (← valueText).map fun t => .scalar (scalarOf t)

/-- Reads a value with fewer than `room` containers inside each other. A container at the limit is
skipped, so that no value is wanted where there is no room. -/
def valueWithin : (room : Nat) → Grammar π (Option (Value (Span π)))
  | 0 => do
    note .valueTooDeep
    pure none
  | room + 1 => do
    outsideGroup
    match ← peekOnLine with
    | none => pure none
    | some c => do
      accept
      valueFrom (valueWithin room) c

/-- Reads a value outside of all containers. -/
def value : Grammar π (Option (Value (Span π))) := do
  valueWithin ((← limit) + 1)

end Diagram.Grammar
