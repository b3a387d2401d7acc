import Diagram.Grammar.Text
import Diagram.Range.Compact

/-!
The grammar of edges: chains of connections between key paths, and the index behind a group of
them.
-/
namespace Diagram.Grammar

variable {π : Type}

/-! ## Connections -/

/-- The head that a connection starts with, from its first character. -/
def sourceHead? : Char → Option Arrowhead
  | '<' => some .hollow
  | '*' => some .filled
  | '-' => some .none
  | _ => none

/-- Reads on behind a backslash in a connection: it may only continue the connection on the next
line. Tells whether the connection can go on. -/
def edgeEscape (start : π) : Grammar π Bool := do
  match ← peekVisible with
  | none => pure true
  | some (next, newlines) =>
    if newlines = 0 then do
      retreat
      reportToReach .invalidEdgeEscape start
      pure false
    else if newlines = 1 then do
      accept
      putBack next
      pure true
    else do
      retreat
      pure true

/-- Reads one character of a connection that starts at a place. What is gathered is the head at
the target, or nothing if the connection is broken. -/
def edgeCharacter (start : π) (_ : Option Arrowhead) : Grammar π (Next (Option Arrowhead)) := do
  match ← peek with
  | none => do
    reportToReach .unterminatedEdge start
    pure (.stop none)
  | some c =>
    if c = '>' then do
      accept
      pure (.stop (some .hollow))
    else if c = '*' then do
      accept
      pure (.stop (some .filled))
    else if c = '\\' then do
      accept
      pure (if ← edgeEscape start then .again none else .stop none)
    else if c = '-' then do
      accept
      pure (.again none)
    else do
      retreat
      pure (.stop (some .none))

/-- Reads a connection behind its first character, up to the head at the target. -/
def edgeLine (start : π) : Grammar π (Option Arrowhead) :=
  repeating (edgeCharacter start) none

/-- A chain of edges as far as it has been read, latest first, with the path that the next edge
leaves from. -/
structure Chain (π : Type) where
  edges : List (Edge (Span π))
  source : Option (KeyPath (Span π))

/-- The place where an edge starts whose first character `c` has been looked at: where its source
starts, or where the edge itself does if the source is missing. -/
def edgeStart (source : Option (KeyPath (Span π))) (c : Char) : Grammar π π := do
  match source with
  | some source => pure source.range.start
  | none => do
    let stop ← lookedPlace
    let start ← before stop c
    report .missingSource start stop
    pure start

/-- Reads the target of an edge behind its connection. -/
def edgeTarget (chain : Chain π) (head : Arrowhead) (start : π) (targetHead : Arrowhead) :
    Grammar π (Next (Chain π)) := do
  let lineEnd ← here
  match ← path with
  | some target =>
    pure (.again ⟨⟨⟨start, target.range.stop⟩, chain.source, head, some target, targetHead⟩ ::
      chain.edges, some target⟩)
  | none => do
    reportToHere .missingTarget start
    pure (.again ⟨⟨⟨start, lineEnd⟩, chain.source, head, none, targetHead⟩ :: chain.edges, none⟩)

/-- Reads an edge whose first character `c` has been looked at. -/
def edgeFrom (chain : Chain π) (c : Char) (head : Arrowhead) : Grammar π (Next (Chain π)) := do
  let start ← edgeStart chain.source c
  accept
  match ← edgeLine start with
  | none => pure (.stop chain)
  | some targetHead => edgeTarget chain head start targetHead

/-- Reads the next edge of a chain, if there is one on the line. -/
def nextEdge (chain : Chain π) : Grammar π (Next (Chain π)) := do
  match ← peekOnLine with
  | none => pure (.stop chain)
  | some c =>
    match sourceHead? c with
    | none => do
      retreat
      pure (.stop chain)
    | some head => edgeFrom chain c head

/-- Reads a chain of edges, the first of which leaves from `source`. -/
def edges (source : Option (KeyPath (Span π))) : Grammar π (List (Edge (Span π))) := do
  let chain ← repeating nextEdge ⟨[], source⟩
  pure chain.edges.reverse

/-! ## Edge indexes -/

/-- Reads one character of a number in an edge index. The digits are gathered latest first, and
given up if the index does not end on its line. -/
def indexDigit (start : π) (digits : Option (List Char)) :
    Grammar π (Next (Option (List Char))) := do
  match ← peekOnLine with
  | none => do
    reportToHere .unterminatedEdgeIndex start
    pure (.stop none)
  | some c =>
    if c = ']' then do
      retreat
      pure (.stop digits)
    else do
      accept
      if c.isDigit then pure (.again (digits.map (c :: ·)))
      else do
        reportToHere .invalidEdgeIndex (← placeOf c)
        pure (.again digits)

/-- Reads the number or the `*` of an edge index.
Numbers that are too large count as the largest. -/
def edgeChoice (start : π) : Grammar π (Option EdgeChoice) := do
  match ← peekOnLine with
  | none => do
    reportToHere .unterminatedEdgeIndex start
    pure none
  | some c =>
    if c.isDigit then do
      accept
      let digits ← repeating (indexDigit start) (some [c])
      pure (digits.map fun ds => .nth (min (decimalValue ds.reverse) maxWord))
    else if c = '*' then do
      accept
      pure (some .all)
    else do
      let stop ← lookedPlace
      retreat
      report .invalidEdgeIndex (← before stop c) stop
      reportToHere .unterminatedEdgeIndex start
      pure none

/-- Reads the closing bracket of an edge index that starts at a place. -/
def indexEnd (start : π) : Grammar π Unit := do
  match ← peekOnLine with
  | none => reportToHere .unterminatedEdgeIndex start
  | some c =>
    if c = ']' then accept
    else do
      retreat
      reportToHere .unterminatedEdgeIndex start

/-- Reads an edge index behind its opening bracket. -/
def edgeIndex : Grammar π (Option (EdgeIndex (Span π))) := do
  let start ← placeOf '['
  match ← edgeChoice start with
  | none => pure none
  | some choice => do
    indexEnd start
    return some ⟨⟨start, ← here⟩, choice⟩

end Diagram.Grammar
