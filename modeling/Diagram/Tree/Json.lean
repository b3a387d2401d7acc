import Diagram.Json.Basic
import Diagram.Range.Compact
import Diagram.Tree.Basic

/-!
Trees as JSON values. `Map.toJson` writes a tree and `Map.ofJson?` reads it. Parts that a key does
not have are left out, apart from its value; ranges are in their compact form; a number is the pair
of its numerator and denominator, each as a sign and digits to the base 2^32, least first.
-/
namespace Diagram

/-! ## Numbers -/

/-- The base of the digits of large integers. -/
def wordBase : Nat := 0x1_0000_0000

/-- The digits of a number to the base 2^32, least first, of which there are at most `fuel`. -/
def wordsWithin : (fuel : Nat) → Nat → List Nat
  | 0, _ => []
  | fuel + 1, n => if n = 0 then [] else n % wordBase :: wordsWithin fuel (n / wordBase)

/-- The digits of a number to the base 2^32, least first. -/
def words (n : Nat) : List Nat := wordsWithin n n

/-- The number with the given digits to the base 2^32, least first. -/
def ofWords : List Nat → Nat
  | [] => 0
  | w :: ws => w + wordBase * ofWords ws

/-- An integer of any size: its sign, and the digits of its absolute value. -/
def integerToJson (n : Int) : Json :=
  .array [.integer n.sign, .array ((words n.natAbs).map fun w : Nat => .integer w)]

def integerOfJson? (j : Json) : Option Int := do
  let [.integer sign, digits] ← j.array? | none
  let digits ← (← digits.array?).mapM (Json.natural? (wordBase - 1))
  if sign ∈ [-1, 0, 1] then pure (sign * ofWords digits) else none

def Fraction.toJson (q : Fraction) : Json :=
  .array [integerToJson q.numerator, integerToJson q.denominator]

/-- Reads a fraction as it is, whether in lowest terms or not. -/
def Fraction.ofJson? (j : Json) : Option Fraction := do
  let [numerator, denominator] ← j.array? | none
  let numerator ← integerOfJson? numerator
  let denominator ← integerOfJson? denominator
  if denominator = 0 then none else pure ⟨numerator, denominator⟩

/-! ## Ranges and comments -/

def Range.toJson (r : Range) : Json := .text r.compact

def Range.ofJson? (j : Json) : Option Range := do
  (Range.ofCompact (← j.text?)).toOption

def Comment.toJson (c : Comment Range) : Json :=
  .object [("range", c.range.toJson), ("value", .text c.text)]

def Comment.ofJson? (j : Json) : Option (Comment Range) := do
  let [some range, some text] ← j.fields? ["range", "value"] | none
  pure ⟨← Range.ofJson? range, ← text.text?⟩

/-! ## Texts, substitutions and paths -/

mutual

def Text.toJson : Text Range → Json
  | .unquoted range pieces => .variant "unquoted" (.object
      [("range", range.toJson), ("value", .array (Piece.toJsonAll pieces))])
  | .doubleQuoted range pieces => .variant "double_quoted" (.object
      [("range", range.toJson), ("value", .array (Piece.toJsonAll pieces))])
  | .singleQuoted range text => .variant "single_quoted" (.object
      [("range", range.toJson), ("value", .text text)])
  | .block range quote tag text => .variant "block" (.object
      [("range", range.toJson), ("quote", .text quote), ("tag", .text tag), ("value", .text text)])

def Piece.toJson : Piece Range → Json
  | .literal value raw => .variant "string" (.object [("value", .text value), ("raw", .text raw)])
  | .substitution s => .variant "substitution" s.toJson

def Substitution.toJson : Substitution Range → Json
  | ⟨range, spread, path⟩ => .object
    [("range", range.toJson), ("spread", .boolean spread), ("path", .array (Text.toJsonAll path))]

def Piece.toJsonAll : List (Piece Range) → List Json
  | [] => []
  | p :: ps => p.toJson :: Piece.toJsonAll ps

def Text.toJsonAll : List (Text Range) → List Json
  | [] => []
  | t :: ts => t.toJson :: Text.toJsonAll ts

end

mutual

/-- Reads a text of no more than `fuel` values inside each other. -/
def Text.ofJsonWithin? : (fuel : Nat) → Json → Option (Text Range)
  | 0, _ => none
  | fuel + 1, j => do
    match ← j.variant? with
    | ("unquoted", some j) => do
      let (range, pieces) ← Piece.pairOfJsonWithin? fuel j
      pure (.unquoted range pieces)
    | ("double_quoted", some j) => do
      let (range, pieces) ← Piece.pairOfJsonWithin? fuel j
      pure (.doubleQuoted range pieces)
    | ("single_quoted", some j) => do
      let [some range, some text] ← j.fields? ["range", "value"] | none
      pure (.singleQuoted (← Range.ofJson? range) (← text.text?))
    | ("block", some j) => do
      let [some range, some quote, some tag, some text] ←
        j.fields? ["range", "quote", "tag", "value"] | none
      pure (.block (← Range.ofJson? range) (← quote.text?) (← tag.text?) (← text.text?))
    | _ => none

/-- Reads the range and the pieces of a text. -/
def Piece.pairOfJsonWithin? : (fuel : Nat) → Json → Option (Range × List (Piece Range))
  | 0, _ => none
  | fuel + 1, j => do
    let [some range, some pieces] ← j.fields? ["range", "value"] | none
    pure (← Range.ofJson? range, ← (← pieces.array?).mapM (Piece.ofJsonWithin? fuel))

def Piece.ofJsonWithin? : (fuel : Nat) → Json → Option (Piece Range)
  | 0, _ => none
  | fuel + 1, j => do
    match ← j.variant? with
    | ("string", some j) => do
      let [some value, some raw] ← j.members? ["value", "raw"] | none
      pure (.literal (← value.text?) (← raw.text?))
    | ("substitution", some j) => return .substitution (← Substitution.ofJsonWithin? fuel j)
    | _ => none

def Substitution.ofJsonWithin? : (fuel : Nat) → Json → Option (Substitution Range)
  | 0, _ => none
  | fuel + 1, j => do
    let [some range, some spread, some path] ← j.fields? ["range", "spread", "path"] | none
    pure ⟨← Range.ofJson? range, ← spread.boolean?,
      ← (← path.array?).mapM (Text.ofJsonWithin? fuel)⟩

end

def Text.ofJson? (j : Json) : Option (Text Range) := Text.ofJsonWithin? j.depth j

def Substitution.ofJson? (j : Json) : Option (Substitution Range) :=
  Substitution.ofJsonWithin? j.depth j

def KeyPath.toJson (p : KeyPath Range) : Json :=
  .object [("range", p.range.toJson), ("path", .array (Text.toJsonAll p.segments))]

def KeyPath.ofJson? (j : Json) : Option (KeyPath Range) := do
  let [some range, some segments] ← j.fields? ["range", "path"] | none
  pure ⟨← Range.ofJson? range, ← (← segments.array?).mapM Text.ofJson?⟩

/-! ## Edges -/

def Arrowhead.name : Arrowhead → String
  | .none => "none"
  | .hollow => "open"
  | .filled => "filled"

def Arrowhead.ofName? : String → Option Arrowhead
  | "none" => some .none
  | "open" => some .hollow
  | "filled" => some .filled
  | _ => Option.none

def Arrowhead.toJson (a : Arrowhead) : Json := .text a.name

def Arrowhead.ofJson? (j : Json) : Option Arrowhead := do
  Arrowhead.ofName? (← j.unit?)

def Edge.toJson (e : Edge Range) : Json :=
  .object
    [("range", e.range.toJson), ("src", .nullable KeyPath.toJson e.source),
      ("src_arrow", e.sourceHead.toJson), ("dst", .nullable KeyPath.toJson e.target),
      ("dst_arrow", e.targetHead.toJson)]

def Edge.ofJson? (j : Json) : Option (Edge Range) := do
  let [some range, source, some sourceHead, target, some targetHead] ←
    j.fields? ["range", "src", "src_arrow", "dst", "dst_arrow"] | none
  pure ⟨← Range.ofJson? range, ← Json.optional? KeyPath.ofJson? source,
    ← Arrowhead.ofJson? sourceHead, ← Json.optional? KeyPath.ofJson? target,
    ← Arrowhead.ofJson? targetHead⟩

def EdgeChoice.toJson : EdgeChoice → Json
  | .nth n => .variant "int" (.integer n)
  | .all => .text "glob"

def EdgeChoice.ofJson? (j : Json) : Option EdgeChoice := do
  match ← j.variant? with
  | ("int", some n) => return .nth (← n.natural? maxWord)
  | ("glob", none) | ("glob", some .null) => pure .all
  | _ => none

def EdgeIndex.toJson (i : EdgeIndex Range) : Json :=
  .object [("range", i.range.toJson), ("value", i.choice.toJson)]

def EdgeIndex.ofJson? (j : Json) : Option (EdgeIndex Range) := do
  let [some range, some choice] ← j.fields? ["range", "value"] | none
  pure ⟨← Range.ofJson? range, ← EdgeChoice.ofJson? choice⟩

/-! ## Scalars -/

def Scalar.toJson : Scalar Range → Json
  | .null range => .variant "null" (.object [("range", range.toJson)])
  | .boolean range value =>
    .variant "boolean" (.object [("range", range.toJson), ("value", .boolean value)])
  | .number range raw value =>
    .variant "number" (.object
      [("range", range.toJson), ("raw", .text raw), ("value", value.toJson)])
  | .text t => .variant "string" t.toJson

def Scalar.ofJson? (j : Json) : Option (Scalar Range) := do
  match ← j.variant? with
  | ("null", some j) => do
    let [some range] ← j.fields? ["range"] | none
    pure (.null (← Range.ofJson? range))
  | ("boolean", some j) => do
    let [some range, some value] ← j.fields? ["range", "value"] | none
    pure (.boolean (← Range.ofJson? range) (← value.boolean?))
  | ("number", some j) => do
    let [some range, some raw, some value] ← j.fields? ["range", "raw", "value"] | none
    pure (.number (← Range.ofJson? range) (← raw.text?) (← Fraction.ofJson? value))
  | ("string", some j) => return .text (← Text.ofJson? j)
  | _ => none

/-! ## Containers -/

mutual

def Value.toJson : Value Range → Json
  | .scalar s => .variant "scalar" s.toJson
  | .sequence s => .variant "array" s.toJson
  | .map m => .variant "map" m.toJson

def Sequence.toJson : Sequence Range → Json
  | ⟨range, items⟩ => .object [("range", range.toJson), ("nodes", .array (Item.toJsonAll items))]

def Map.toJson : Map Range → Json
  | ⟨range, entries⟩ =>
    .object [("range", range.toJson), ("nodes", .array (Entry.toJsonAll entries))]

def Item.toJson : Item Range → Json
  | .comment c => .variant "comment" c.toJson
  | .blockComment c => .variant "block_comment" c.toJson
  | .substitution s => .variant "substitution" s.toJson
  | .value v => .variant "value" v.toJson

def Entry.toJson : Entry Range → Json
  | .comment c => .variant "comment" c.toJson
  | .blockComment c => .variant "block_comment" c.toJson
  | .substitution s => .variant "substitution" s.toJson
  | .key k => .variant "map_key" k.toJson

def Key.toJson : Key Range → Json
  | ⟨range, ampersand, path, edges, edgeIndex, edgePath, primary, value⟩ => .object (
    [("range", range.toJson)] ++
    (if ampersand then [("ampersand", .boolean true)] else []) ++
    Json.member? "key" KeyPath.toJson path ++
    (if edges.isEmpty then [] else [("edges", .array (edges.map Edge.toJson))]) ++
    Json.member? "edge_index" EdgeIndex.toJson edgeIndex ++
    Json.member? "edge_key" KeyPath.toJson edgePath ++
    Json.member? "primary" Scalar.toJson primary ++
    [("value", Value.toJson? value)])

def Value.toJson? : Option (Value Range) → Json
  | none => .null
  | some v => v.toJson

def Item.toJsonAll : List (Item Range) → List Json
  | [] => []
  | i :: is => i.toJson :: Item.toJsonAll is

def Entry.toJsonAll : List (Entry Range) → List Json
  | [] => []
  | e :: es => e.toJson :: Entry.toJsonAll es

end

mutual

/-- Reads a value of no more than `fuel` values inside each other. -/
def Value.ofJsonWithin? : (fuel : Nat) → Json → Option (Value Range)
  | 0, _ => none
  | fuel + 1, j => do
    match ← j.variant? with
    | ("scalar", some j) => return .scalar (← Scalar.ofJson? j)
    | ("array", some j) => return .sequence (← Sequence.ofJsonWithin? fuel j)
    | ("map", some j) => return .map (← Map.ofJsonWithin? fuel j)
    | _ => none

def Sequence.ofJsonWithin? : (fuel : Nat) → Json → Option (Sequence Range)
  | 0, _ => none
  | fuel + 1, j => do
    let [some range, some items] ← j.fields? ["range", "nodes"] | none
    pure ⟨← Range.ofJson? range, ← (← items.array?).mapM (Item.ofJsonWithin? fuel)⟩

def Map.ofJsonWithin? : (fuel : Nat) → Json → Option (Map Range)
  | 0, _ => none
  | fuel + 1, j => do
    let [some range, some entries] ← j.fields? ["range", "nodes"] | none
    pure ⟨← Range.ofJson? range, ← (← entries.array?).mapM (Entry.ofJsonWithin? fuel)⟩

def Item.ofJsonWithin? : (fuel : Nat) → Json → Option (Item Range)
  | 0, _ => none
  | fuel + 1, j => do
    match ← j.variant? with
    | ("comment", some j) => return .comment (← Comment.ofJson? j)
    | ("block_comment", some j) => return .blockComment (← Comment.ofJson? j)
    | ("substitution", some j) => return .substitution (← Substitution.ofJson? j)
    | ("value", some j) => return .value (← Value.ofJsonWithin? fuel j)
    | _ => none

def Entry.ofJsonWithin? : (fuel : Nat) → Json → Option (Entry Range)
  | 0, _ => none
  | fuel + 1, j => do
    match ← j.variant? with
    | ("comment", some j) => return .comment (← Comment.ofJson? j)
    | ("block_comment", some j) => return .blockComment (← Comment.ofJson? j)
    | ("substitution", some j) => return .substitution (← Substitution.ofJson? j)
    | ("map_key", some j) => return .key (← Key.ofJsonWithin? fuel j)
    | _ => none

def Key.ofJsonWithin? : (fuel : Nat) → Json → Option (Key Range)
  | 0, _ => none
  | fuel + 1, j => do
    let [some range, ampersand, path, edges, edgeIndex, edgePath, primary, value] ←
      j.fields? ["range", "ampersand", "key", "edges", "edge_index", "edge_key", "primary",
        "value"] | none
    pure ⟨← Range.ofJson? range, ← Json.default? false Json.boolean? ampersand,
      ← Json.optional? KeyPath.ofJson? path,
      ← Json.default? [] (fun j => do (← j.array?).mapM Edge.ofJson?) edges,
      ← Json.optional? EdgeIndex.ofJson? edgeIndex, ← Json.optional? KeyPath.ofJson? edgePath,
      ← Json.optional? Scalar.ofJson? primary,
      ← Json.optional? (Value.ofJsonWithin? fuel) value⟩

end

def Map.ofJson? (j : Json) : Option (Map Range) := Map.ofJsonWithin? j.depth j

end Diagram
