import Diagram.Grammar.Container
import Diagram.Tree.Mark

/-!
Changing the marks of a tree twice is changing them once. The trees are nested through lists and
options, so the induction goes over the nodes and over the lists of them side by side. What a text
stands for has nothing to do with marks.
-/
namespace Diagram

variable {ρ σ τ : Type} (f : ρ → σ) (g : σ → τ)

mutual

theorem Text.mapMarks_mapMarks : (t : Text ρ) →
    (t.mapMarks f).mapMarks g = t.mapMarks fun r => g (f r)
  | .unquoted range pieces =>
    congrArg (Text.unquoted (g (f range))) (Piece.mapMarksAll_mapMarksAll pieces)
  | .doubleQuoted range pieces =>
    congrArg (Text.doubleQuoted (g (f range))) (Piece.mapMarksAll_mapMarksAll pieces)
  | .singleQuoted _ _ => rfl
  | .block _ _ _ _ => rfl

theorem Piece.mapMarks_mapMarks : (p : Piece ρ) →
    (p.mapMarks f).mapMarks g = p.mapMarks fun r => g (f r)
  | .literal _ _ => rfl
  | .substitution s => congrArg Piece.substitution (Substitution.mapMarks_mapMarks s)

theorem Substitution.mapMarks_mapMarks : (s : Substitution ρ) →
    (s.mapMarks f).mapMarks g = s.mapMarks fun r => g (f r)
  | ⟨range, spread, path⟩ =>
    congrArg (Substitution.mk (g (f range)) spread) (Text.mapMarksAll_mapMarksAll path)

theorem Piece.mapMarksAll_mapMarksAll : (ps : List (Piece ρ)) →
    Piece.mapMarksAll g (Piece.mapMarksAll f ps) = Piece.mapMarksAll (fun r => g (f r)) ps
  | [] => rfl
  | p :: ps => congr (congrArg List.cons (Piece.mapMarks_mapMarks p))
      (Piece.mapMarksAll_mapMarksAll ps)

theorem Text.mapMarksAll_mapMarksAll : (ts : List (Text ρ)) →
    Text.mapMarksAll g (Text.mapMarksAll f ts) = Text.mapMarksAll (fun r => g (f r)) ts
  | [] => rfl
  | t :: ts => congr (congrArg List.cons (Text.mapMarks_mapMarks t))
      (Text.mapMarksAll_mapMarksAll ts)

end

theorem KeyPath.mapMarks_mapMarks (path : KeyPath ρ) :
    (path.mapMarks f).mapMarks g = path.mapMarks fun r => g (f r) := by
  simp only [KeyPath.mapMarks, Text.mapMarksAll_mapMarksAll]

theorem Edge.mapMarks_mapMarks (edge : Edge ρ) :
    (edge.mapMarks f).mapMarks g = edge.mapMarks fun r => g (f r) := by
  simp only [Edge.mapMarks, Option.map_map, Function.comp_def, KeyPath.mapMarks_mapMarks]

theorem Scalar.mapMarks_mapMarks (s : Scalar ρ) :
    (s.mapMarks f).mapMarks g = s.mapMarks fun r => g (f r) := by
  cases s with
  | text t => exact congrArg Scalar.text (Text.mapMarks_mapMarks f g t)
  | null _ | boolean _ _ | number _ _ _ => rfl

mutual

theorem Value.mapMarks_mapMarks : (v : Value ρ) →
    (v.mapMarks f).mapMarks g = v.mapMarks fun r => g (f r)
  | .scalar s => congrArg Value.scalar (Scalar.mapMarks_mapMarks f g s)
  | .sequence s => congrArg Value.sequence (Sequence.mapMarks_mapMarks s)
  | .map m => congrArg Value.map (Map.mapMarks_mapMarks m)

theorem Sequence.mapMarks_mapMarks : (s : Sequence ρ) →
    (s.mapMarks f).mapMarks g = s.mapMarks fun r => g (f r)
  | ⟨range, items⟩ =>
    congrArg (Sequence.mk (g (f range))) (Item.mapMarksAll_mapMarksAll items)

/-- **Marks changed twice**: a tree whose marks are changed by `f` and then by `g` is the tree with
its marks changed by both at once. -/
theorem Map.mapMarks_mapMarks : (m : Map ρ) →
    (m.mapMarks f).mapMarks g = m.mapMarks fun r => g (f r)
  | ⟨range, entries⟩ =>
    congrArg (Map.mk (g (f range))) (Entry.mapMarksAll_mapMarksAll entries)

theorem Item.mapMarks_mapMarks : (x : Item ρ) →
    (x.mapMarks f).mapMarks g = x.mapMarks fun r => g (f r)
  | .comment _ | .blockComment _ => rfl
  | .substitution s => congrArg Item.substitution (Substitution.mapMarks_mapMarks f g s)
  | .value v => congrArg Item.value (Value.mapMarks_mapMarks v)

theorem Entry.mapMarks_mapMarks : (x : Entry ρ) →
    (x.mapMarks f).mapMarks g = x.mapMarks fun r => g (f r)
  | .comment _ | .blockComment _ => rfl
  | .substitution s => congrArg Entry.substitution (Substitution.mapMarks_mapMarks f g s)
  | .key k => congrArg Entry.key (Key.mapMarks_mapMarks k)

theorem Key.mapMarks_mapMarks : (k : Key ρ) →
    (k.mapMarks f).mapMarks g = k.mapMarks fun r => g (f r)
  | ⟨_, _, _, _, _, _, _, value⟩ => by
    have hvalue := Value.mapMarks?_mapMarks? value
    simp only [Key.mapMarks, Option.map_map, List.map_map, Function.comp_def,
      KeyPath.mapMarks_mapMarks, Edge.mapMarks_mapMarks, EdgeIndex.mapMarks,
      Scalar.mapMarks_mapMarks, hvalue]

theorem Value.mapMarks?_mapMarks? : (v : Option (Value ρ)) →
    Value.mapMarks? g (Value.mapMarks? f v) = Value.mapMarks? (fun r => g (f r)) v
  | none => rfl
  | some v => congrArg some (Value.mapMarks_mapMarks v)

theorem Item.mapMarksAll_mapMarksAll : (xs : List (Item ρ)) →
    Item.mapMarksAll g (Item.mapMarksAll f xs) = Item.mapMarksAll (fun r => g (f r)) xs
  | [] => rfl
  | x :: xs => congr (congrArg List.cons (Item.mapMarks_mapMarks x))
      (Item.mapMarksAll_mapMarksAll xs)

theorem Entry.mapMarksAll_mapMarksAll : (xs : List (Entry ρ)) →
    Entry.mapMarksAll g (Entry.mapMarksAll f xs) = Entry.mapMarksAll (fun r => g (f r)) xs
  | [] => rfl
  | x :: xs => congr (congrArg List.cons (Entry.mapMarks_mapMarks x))
      (Entry.mapMarksAll_mapMarksAll xs)

end

/-! ## What a text stands for -/

theorem Text.content_mapMarks (t : Text ρ) : (t.mapMarks f).content = t.content := by
  have hpieces : ∀ pieces : List (Piece ρ),
      firstLiteral (Piece.mapMarksAll f pieces) = firstLiteral pieces := by
    intro pieces
    match pieces with
    | [] | .literal _ _ :: _ | .substitution _ :: _ => rfl
  cases t with
  | unquoted _ pieces | doubleQuoted _ pieces => exact hpieces pieces
  | singleQuoted _ _ | block _ _ _ _ => rfl

/-- The scalar that a text is taken for does not depend on the marks. -/
theorem Grammar.scalarOf_mapMarks (t : Text ρ) :
    scalarOf (t.mapMarks f) = (scalarOf t).mapMarks f := by
  match t with
  | .unquoted range [.literal text raw] =>
    simp only [scalarOf, Text.mapMarks, Piece.mapMarksAll, Piece.mapMarks]
    split
    · rfl
    split
    · rfl
    split
    · rfl
    split <;> rfl
  | .unquoted range [] => rfl
  | .unquoted range [.substitution s] => rfl
  | .unquoted range (piece :: piece' :: pieces) => cases piece <;> rfl
  | .doubleQuoted range pieces => rfl
  | .singleQuoted range text => rfl
  | .block range quote tag text => rfl

end Diagram
