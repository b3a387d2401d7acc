import Diagram.Tree.Basic

/-!
Changing the marks of a tree: `Map.mapMarks f` is the same tree with `f` applied to every mark.
-/
namespace Diagram

variable {ρ σ : Type} (f : ρ → σ)

def Comment.mapMarks (comment : Comment ρ) : Comment σ :=
  ⟨f comment.range, comment.text⟩

mutual

def Text.mapMarks : Text ρ → Text σ
  | .unquoted range pieces => .unquoted (f range) (Piece.mapMarksAll pieces)
  | .doubleQuoted range pieces => .doubleQuoted (f range) (Piece.mapMarksAll pieces)
  | .singleQuoted range text => .singleQuoted (f range) text
  | .block range quote tag text => .block (f range) quote tag text

def Piece.mapMarks : Piece ρ → Piece σ
  | .literal value raw => .literal value raw
  | .substitution s => .substitution s.mapMarks

def Substitution.mapMarks : Substitution ρ → Substitution σ
  | ⟨range, spread, path⟩ => ⟨f range, spread, Text.mapMarksAll path⟩

def Piece.mapMarksAll : List (Piece ρ) → List (Piece σ)
  | [] => []
  | piece :: pieces => piece.mapMarks :: Piece.mapMarksAll pieces

def Text.mapMarksAll : List (Text ρ) → List (Text σ)
  | [] => []
  | text :: texts => text.mapMarks :: Text.mapMarksAll texts

end

theorem Piece.mapMarksAll_eq (pieces : List (Piece ρ)) :
    Piece.mapMarksAll f pieces = pieces.map (Piece.mapMarks f) := by
  induction pieces with
  | nil => rfl
  | cons piece pieces ih => rw [Piece.mapMarksAll, ih, List.map_cons]

theorem Text.mapMarksAll_eq (texts : List (Text ρ)) :
    Text.mapMarksAll f texts = texts.map (Text.mapMarks f) := by
  induction texts with
  | nil => rfl
  | cons text texts ih => rw [Text.mapMarksAll, ih, List.map_cons]

def KeyPath.mapMarks (path : KeyPath ρ) : KeyPath σ :=
  ⟨f path.range, Text.mapMarksAll f path.segments⟩

def Edge.mapMarks (edge : Edge ρ) : Edge σ :=
  ⟨f edge.range, edge.source.map (·.mapMarks f), edge.sourceHead,
    edge.target.map (·.mapMarks f), edge.targetHead⟩

def EdgeIndex.mapMarks (index : EdgeIndex ρ) : EdgeIndex σ :=
  ⟨f index.range, index.choice⟩

def Scalar.mapMarks : Scalar ρ → Scalar σ
  | .null range => .null (f range)
  | .boolean range value => .boolean (f range) value
  | .number range raw value => .number (f range) raw value
  | .text t => .text (t.mapMarks f)

mutual

def Value.mapMarks : Value ρ → Value σ
  | .scalar s => .scalar (s.mapMarks f)
  | .sequence s => .sequence s.mapMarks
  | .map m => .map m.mapMarks

def Sequence.mapMarks : Sequence ρ → Sequence σ
  | ⟨range, items⟩ => ⟨f range, Item.mapMarksAll items⟩

def Map.mapMarks : Map ρ → Map σ
  | ⟨range, entries⟩ => ⟨f range, Entry.mapMarksAll entries⟩

def Item.mapMarks : Item ρ → Item σ
  | .comment c => .comment (c.mapMarks f)
  | .blockComment c => .blockComment (c.mapMarks f)
  | .substitution s => .substitution (s.mapMarks f)
  | .value v => .value v.mapMarks

def Entry.mapMarks : Entry ρ → Entry σ
  | .comment c => .comment (c.mapMarks f)
  | .blockComment c => .blockComment (c.mapMarks f)
  | .substitution s => .substitution (s.mapMarks f)
  | .key k => .key k.mapMarks

def Key.mapMarks : Key ρ → Key σ
  | ⟨range, ampersand, path, edges, edgeIndex, edgePath, primary, value⟩ =>
    ⟨f range, ampersand, path.map (·.mapMarks f), edges.map (·.mapMarks f),
      edgeIndex.map (·.mapMarks f), edgePath.map (·.mapMarks f), primary.map (·.mapMarks f),
      Value.mapMarks? value⟩

def Value.mapMarks? : Option (Value ρ) → Option (Value σ)
  | none => none
  | some value => some value.mapMarks

def Item.mapMarksAll : List (Item ρ) → List (Item σ)
  | [] => []
  | item :: items => item.mapMarks :: Item.mapMarksAll items

def Entry.mapMarksAll : List (Entry ρ) → List (Entry σ)
  | [] => []
  | entry :: entries => entry.mapMarks :: Entry.mapMarksAll entries

end

theorem Item.mapMarksAll_eq (items : List (Item ρ)) :
    Item.mapMarksAll f items = items.map (Item.mapMarks f) := by
  induction items with
  | nil => rfl
  | cons item items ih => rw [Item.mapMarksAll, ih, List.map_cons]

theorem Entry.mapMarksAll_eq (entries : List (Entry ρ)) :
    Entry.mapMarksAll f entries = entries.map (Entry.mapMarks f) := by
  induction entries with
  | nil => rfl
  | cons entry entries ih => rw [Entry.mapMarksAll, ih, List.map_cons]

theorem Map.entries_mapMarks (m : Map ρ) :
    (m.mapMarks f).entries = m.entries.map (Entry.mapMarks f) := by
  cases m
  exact Entry.mapMarksAll_eq f _

theorem Key.mapMarks_eq (key : Key ρ) : key.mapMarks f =
    ⟨f key.range, key.ampersand, key.path.map (·.mapMarks f), key.edges.map (·.mapMarks f),
      key.edgeIndex.map (·.mapMarks f), key.edgePath.map (·.mapMarks f),
      key.primary.map (·.mapMarks f), key.value.map (Value.mapMarks f)⟩ := by
  obtain ⟨range, ampersand, path, edges, edgeIndex, edgePath, primary, value⟩ := key
  cases value <;> rfl

theorem Entry.range_mapMarks (entry : Entry ρ) : (entry.mapMarks f).range = f entry.range := by
  cases entry with
  | comment _ | blockComment _ => rfl
  | substitution s =>
    cases s
    rfl
  | key k =>
    cases k
    rfl

theorem Key.isNamed_mapMarks (key : Key ρ) : (key.mapMarks f).isNamed = key.isNamed := by
  simp [Key.mapMarks_eq, Key.isNamed]

end Diagram
