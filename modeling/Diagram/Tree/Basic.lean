/-!
The tree of a diagram. Every node carries a mark `ρ` of where it was read from: a span of places
while the text is being read, a `Range` afterwards.

A `Map` holds comments, spread substitutions and keys; a `Sequence` holds comments, spread
substitutions and values; the value of a key is a scalar, a sequence or a map.
-/
namespace Diagram

/-- A comment: the text of its lines. -/
structure Comment (ρ : Type) where
  range : ρ
  text : String
  deriving DecidableEq, Repr

mutual

/-- A text in one of its four written forms. -/
inductive Text (ρ : Type) where
  /-- Written as it is. -/
  | unquoted (range : ρ) (pieces : List (Piece ρ))
  /-- Written between double quotes. -/
  | doubleQuoted (range : ρ) (pieces : List (Piece ρ))
  /-- Written between single quotes. -/
  | singleQuoted (range : ρ) (text : String)
  /-- Written between `|` and `|`, with `quote` as the inner part of both delimiters and `tag` for
  the language of the text. -/
  | block (range : ρ) (quote tag text : String)

/-- A piece of a text that may refer to other parts of the diagram. -/
inductive Piece (ρ : Type) where
  /-- Literal text: what it stands for, and how it is written. -/
  | literal (value raw : String)
  | substitution (reference : Substitution ρ)

/-- A reference `${a.b}` to a value elsewhere, or with `spread` the form `...${a.b}`. -/
structure Substitution (ρ : Type) where
  range : ρ
  spread : Bool
  path : List (Text ρ)

end

/-- A path of texts with points between them, such as `a.b."c d"`. -/
structure KeyPath (ρ : Type) where
  range : ρ
  segments : List (Text ρ)

/-- What is drawn at one end of an edge. -/
inductive Arrowhead where
  | none
  /-- Written `<` at the source and `>` at the target. -/
  | hollow
  /-- Written `*`. -/
  | filled
  deriving DecidableEq, Repr

/-- The character written for an arrowhead at the source or at the target. -/
def Arrowhead.char? : (atSource : Bool) → Arrowhead → Option Char
  | _, .none => Option.none
  | true, .hollow => some '<'
  | false, .hollow => some '>'
  | _, .filled => some '*'

/-- One hop of a chain of connections. An end is missing only where the text is malformed. -/
structure Edge (ρ : Type) where
  range : ρ
  source : Option (KeyPath ρ)
  sourceHead : Arrowhead
  target : Option (KeyPath ρ)
  targetHead : Arrowhead

/-- Which of several equal edges is meant. -/
inductive EdgeChoice where
  | nth (n : Nat)
  /-- Written `*`. -/
  | all
  deriving DecidableEq, Repr

/-- The `[n]` or `[*]` behind a group of edges. -/
structure EdgeIndex (ρ : Type) where
  range : ρ
  choice : EdgeChoice
  deriving DecidableEq, Repr

/-- A quotient of two integers, as it is written down. -/
structure Fraction where
  numerator : Int
  denominator : Int
  deriving DecidableEq, Repr

/-- A rational number in lowest terms with a positive denominator. -/
def Fraction.ofRat (q : Rat) : Fraction := ⟨q.num, q.den⟩

inductive Scalar (ρ : Type) where
  | null (range : ρ)
  | boolean (range : ρ) (value : Bool)
  /-- A number: how it is written, and its exact value. -/
  | number (range : ρ) (raw : String) (value : Fraction)
  | text (text : Text ρ)

mutual

/-- What a key or an element of a sequence holds. -/
inductive Value (ρ : Type) where
  | scalar (scalar : Scalar ρ)
  | sequence (sequence : Sequence ρ)
  | map (map : Map ρ)

/-- A list of values in brackets. -/
structure Sequence (ρ : Type) where
  range : ρ
  items : List (Item ρ)

/-- The entries between two braces, or those of a whole file. -/
structure Map (ρ : Type) where
  range : ρ
  entries : List (Entry ρ)

/-- A child of a sequence. -/
inductive Item (ρ : Type) where
  | comment (comment : Comment ρ)
  | blockComment (comment : Comment ρ)
  | substitution (reference : Substitution ρ)
  | value (value : Value ρ)

/-- A child of a map. -/
inductive Entry (ρ : Type) where
  | comment (comment : Comment ρ)
  | blockComment (comment : Comment ρ)
  | substitution (reference : Substitution ρ)
  | key (key : Key ρ)

/-- A statement of a map. Some of its forms:

- `x`: a path
- `x -> y`: edges
- `(x -> y)[*]`: edges and an edge index
- `(x -> y).label`: edges and an edge path
- `container.(x -> y -> z)[4].a`: a path, edges, an edge index and an edge path

Each of them may go on with a value, or with a primary scalar and a map. -/
structure Key (ρ : Type) where
  range : ρ
  /-- Written with `&` in front. -/
  ampersand : Bool
  path : Option (KeyPath ρ)
  edges : List (Edge ρ)
  edgeIndex : Option (EdgeIndex ρ)
  edgePath : Option (KeyPath ρ)
  primary : Option (Scalar ρ)
  value : Option (Value ρ)

end

/-- A key with none of its parts. -/
def Key.empty {ρ : Type} (range : ρ) : Key ρ :=
  ⟨range, false, none, [], none, none, none, none⟩

/-- Has a path or an edge, so that it names something. -/
def Key.isNamed {ρ : Type} (key : Key ρ) : Bool :=
  key.path.isSome || !key.edges.isEmpty

/-! ## Where a node was read from -/

def Text.range {ρ : Type} : Text ρ → ρ
  | .unquoted r _ | .doubleQuoted r _ | .singleQuoted r _ | .block r _ _ _ => r

def Scalar.range {ρ : Type} : Scalar ρ → ρ
  | .null r | .boolean r _ | .number r _ _ => r
  | .text t => t.range

def Value.range {ρ : Type} : Value ρ → ρ
  | .scalar s => s.range
  | .sequence s => s.range
  | .map m => m.range

def Item.range {ρ : Type} : Item ρ → ρ
  | .comment c | .blockComment c => c.range
  | .substitution s => s.range
  | .value v => v.range

def Entry.range {ρ : Type} : Entry ρ → ρ
  | .comment c | .blockComment c => c.range
  | .substitution s => s.range
  | .key k => k.range

/-! ## What a node is called in messages -/

def Text.typeName {ρ : Type} : Text ρ → String
  | .unquoted .. => "unquoted string"
  | .doubleQuoted .. => "double quoted string"
  | .singleQuoted .. => "single quoted string"
  | .block _ _ tag _ => tag ++ " block string"

def Scalar.typeName {ρ : Type} : Scalar ρ → String
  | .null _ => "null"
  | .boolean .. => "boolean"
  | .number .. => "number"
  | .text t => t.typeName

def Value.typeName {ρ : Type} : Value ρ → String
  | .scalar s => s.typeName
  | .sequence _ => "array"
  | .map _ => "map"

def Item.typeName {ρ : Type} : Item ρ → String
  | .comment _ => "comment"
  | .blockComment _ => "block comment"
  | .substitution _ => "substitution"
  | .value v => v.typeName

def Entry.typeName {ρ : Type} : Entry ρ → String
  | .comment _ => "comment"
  | .blockComment _ => "block comment"
  | .substitution _ => "substitution"
  | .key _ => "map key"

/-! ## The text of a node -/

/-- The value of the literal that the pieces start with. -/
def firstLiteral {ρ : Type} : List (Piece ρ) → String
  | .literal v _ :: _ => v
  | _ => ""

/-- The text that a written form stands for, up to the first substitution. -/
def Text.content {ρ : Type} : Text ρ → String
  | .unquoted _ pieces | .doubleQuoted _ pieces => firstLiteral pieces
  | .singleQuoted _ t | .block _ _ _ t => t

/-- The pieces, in the forms that can hold substitutions. -/
def Text.pieces? {ρ : Type} : Text ρ → Option (List (Piece ρ))
  | .unquoted _ pieces | .doubleQuoted _ pieces => some pieces
  | .singleQuoted .. | .block .. => none

/-- The text of a scalar; a number keeps its written form. -/
def Scalar.content {ρ : Type} : Scalar ρ → String
  | .null _ => "null"
  | .boolean _ b => if b then "true" else "false"
  | .number _ raw _ => raw
  | .text t => t.content

/-- The texts that the segments of a path stand for. -/
def KeyPath.names {ρ : Type} (path : KeyPath ρ) : List String :=
  path.segments.map Text.content

end Diagram
