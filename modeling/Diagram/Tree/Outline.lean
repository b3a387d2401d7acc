import Diagram.Tree.Edit

/-!
The outline of a tree: its nodes in the order they stand in the text, each with its depth.
-/
namespace Diagram

/-- What an outline says about a node besides where it is. -/
inductive Detail where
  | nothing
  | map (entries : Nat) (isFileMap : Bool)
  | sequence (items : Nat)
  | path (names : List String)
  /-- The characters written for the heads of an edge. -/
  | heads (source target : Option Char)
  | index (choice : EdgeChoice)
  | scalar (content : String)
  /-- The content of a text, and the number of its pieces if its form has any. -/
  | text (content : String) (pieces : Option Nat)
  | substitution (spread : Bool)
  deriving DecidableEq, Repr

structure OutlineEntry where
  depth : Nat
  typeName : String
  range : Range
  detail : Detail
  deriving DecidableEq, Repr

mutual

def Text.outline (depth : Nat) : Text Range → List OutlineEntry
  | .unquoted range pieces =>
    ⟨depth, "unquoted string", range, .text (firstLiteral pieces) (some pieces.length)⟩ ::
      Piece.outlineAll (depth + 1) pieces
  | .doubleQuoted range pieces =>
    ⟨depth, "double quoted string", range, .text (firstLiteral pieces) (some pieces.length)⟩ ::
      Piece.outlineAll (depth + 1) pieces
  | .singleQuoted range text => [⟨depth, "single quoted string", range, .text text none⟩]
  | .block range _ tag text => [⟨depth, tag ++ " block string", range, .text text none⟩]

def Piece.outline (depth : Nat) : Piece Range → List OutlineEntry
  | .literal .. => []
  | .substitution s => s.outline depth

def Substitution.outline (depth : Nat) : Substitution Range → List OutlineEntry
  | ⟨range, spread, path⟩ =>
    ⟨depth, "substitution", range, .substitution spread⟩ :: Text.outlineAll (depth + 1) path

def Piece.outlineAll (depth : Nat) : List (Piece Range) → List OutlineEntry
  | [] => []
  | p :: ps => p.outline depth ++ Piece.outlineAll depth ps

def Text.outlineAll (depth : Nat) : List (Text Range) → List OutlineEntry
  | [] => []
  | t :: ts => t.outline depth ++ Text.outlineAll depth ts

end

def KeyPath.outline (depth : Nat) (p : KeyPath Range) : List OutlineEntry :=
  ⟨depth, "key path", p.range, .path p.names⟩ :: Text.outlineAll (depth + 1) p.segments

def Edge.outline (depth : Nat) (e : Edge Range) : List OutlineEntry :=
  ⟨depth, "edge", e.range, .heads (e.sourceHead.char? true) (e.targetHead.char? false)⟩ ::
    (e.source.toList ++ e.target.toList).flatMap (KeyPath.outline (depth + 1))

def EdgeIndex.outline (depth : Nat) (i : EdgeIndex Range) : OutlineEntry :=
  ⟨depth, "edge index", i.range, .index i.choice⟩

def Scalar.outline (depth : Nat) : Scalar Range → List OutlineEntry
  | .text t => t.outline depth
  | s => [⟨depth, s.typeName, s.range, .scalar s.content⟩]

mutual

def Value.outline (depth : Nat) : Value Range → List OutlineEntry
  | .scalar s => s.outline depth
  | .sequence s => s.outline depth
  | .map m => m.outline depth

def Sequence.outline (depth : Nat) : Sequence Range → List OutlineEntry
  | ⟨range, items⟩ =>
    ⟨depth, "array", range, .sequence items.length⟩ :: Item.outlineAll (depth + 1) items

def Map.outline (depth : Nat) : Map Range → List OutlineEntry
  | ⟨range, entries⟩ =>
    ⟨depth, "map", range, .map entries.length (Map.isFileMap ⟨range, entries⟩)⟩ ::
      Entry.outlineAll (depth + 1) entries

def Item.outline (depth : Nat) : Item Range → List OutlineEntry
  | .comment c => [⟨depth, "comment", c.range, .nothing⟩]
  | .blockComment c => [⟨depth, "block comment", c.range, .nothing⟩]
  | .substitution s => [⟨depth, "substitution", s.range, .nothing⟩]
  | .value v => v.outline depth

def Entry.outline (depth : Nat) : Entry Range → List OutlineEntry
  | .comment c => [⟨depth, "comment", c.range, .nothing⟩]
  | .blockComment c => [⟨depth, "block comment", c.range, .nothing⟩]
  | .substitution s => [⟨depth, "substitution", s.range, .nothing⟩]
  | .key k => k.outline depth

def Key.outline (depth : Nat) : Key Range → List OutlineEntry
  | ⟨range, _, path, edges, edgeIndex, edgePath, primary, value⟩ =>
    ⟨depth, "map key", range, .nothing⟩ ::
      (path.toList.flatMap (KeyPath.outline (depth + 1)) ++
        edges.flatMap (Edge.outline (depth + 1)) ++
        edgeIndex.toList.map (EdgeIndex.outline (depth + 1)) ++
        edgePath.toList.flatMap (KeyPath.outline (depth + 1)) ++
        primary.toList.flatMap (Scalar.outline (depth + 1)) ++
        Value.outline? (depth + 1) value)

def Value.outline? (depth : Nat) : Option (Value Range) → List OutlineEntry
  | none => []
  | some v => v.outline depth

def Item.outlineAll (depth : Nat) : List (Item Range) → List OutlineEntry
  | [] => []
  | i :: is => i.outline depth ++ Item.outlineAll depth is

def Entry.outlineAll (depth : Nat) : List (Entry Range) → List OutlineEntry
  | [] => []
  | e :: es => e.outline depth ++ Entry.outlineAll depth es

end

end Diagram
