import Diagram.Grammar.Container
import Diagram.Tree.Equality
import Diagram.Tree.Mark

/-!
The texts, substitutions and scalars of a tree, wherever they stand in it.
-/
namespace Diagram

variable {ρ σ : Type}

/-- A part of a tree that holds text. -/
inductive Atom (ρ : Type) where
  /-- A segment of a path: of a key, an edge or a substitution. -/
  | name (text : Text ρ)
  /-- A value or a primary scalar. -/
  | scalar (scalar : Scalar ρ)
  /-- A substitution inside of a text. -/
  | insertion (reference : Substitution ρ)
  /-- A substitution that is a child of a map or a sequence. -/
  | spread (reference : Substitution ρ)
  deriving DecidableEq

/-! ## The atoms of a tree -/

mutual

/-- The substitutions inside of a text, and what is inside of them. -/
def Text.atoms : Text ρ → List (Atom ρ)
  | .unquoted _ pieces | .doubleQuoted _ pieces => Piece.atomsAll pieces
  | .singleQuoted .. | .block .. => []

def Piece.atoms : Piece ρ → List (Atom ρ)
  | .literal .. => []
  | .substitution s => .insertion s :: s.atoms

/-- The names in the path of a substitution, and what is inside of them. -/
def Substitution.atoms : Substitution ρ → List (Atom ρ)
  | ⟨_, _, path⟩ => Text.atomsAll path

def Piece.atomsAll : List (Piece ρ) → List (Atom ρ)
  | [] => []
  | piece :: pieces => piece.atoms ++ Piece.atomsAll pieces

/-- Texts that are names, and what is inside of them. -/
def Text.atomsAll : List (Text ρ) → List (Atom ρ)
  | [] => []
  | text :: texts => .name text :: (text.atoms ++ Text.atomsAll texts)

end

def KeyPath.atoms (path : KeyPath ρ) : List (Atom ρ) :=
  Text.atomsAll path.segments

def KeyPath.atoms? (path : Option (KeyPath ρ)) : List (Atom ρ) :=
  path.toList.flatMap KeyPath.atoms

def Edge.atoms (e : Edge ρ) : List (Atom ρ) :=
  KeyPath.atoms? e.source ++ KeyPath.atoms? e.target

def Scalar.atoms : Scalar ρ → List (Atom ρ)
  | .text t => .scalar (.text t) :: t.atoms
  | s => [.scalar s]

mutual

def Value.atoms : Value ρ → List (Atom ρ)
  | .scalar s => s.atoms
  | .sequence s => s.atoms
  | .map m => m.atoms

def Sequence.atoms : Sequence ρ → List (Atom ρ)
  | ⟨_, items⟩ => Item.atomsAll items

/-- The texts, substitutions and scalars in a map, in the order they are written. -/
def Map.atoms : Map ρ → List (Atom ρ)
  | ⟨_, entries⟩ => Entry.atomsAll entries

def Item.atoms : Item ρ → List (Atom ρ)
  | .comment _ | .blockComment _ => []
  | .substitution s => .spread s :: s.atoms
  | .value v => v.atoms

def Entry.atoms : Entry ρ → List (Atom ρ)
  | .comment _ | .blockComment _ => []
  | .substitution s => .spread s :: s.atoms
  | .key k => k.atoms

def Key.atoms : Key ρ → List (Atom ρ)
  | ⟨_, _, path, edges, _, edgePath, primary, value⟩ =>
    KeyPath.atoms? path ++ edges.flatMap Edge.atoms ++ KeyPath.atoms? edgePath ++
      primary.toList.flatMap Scalar.atoms ++ Value.atoms? value

def Value.atoms? : Option (Value ρ) → List (Atom ρ)
  | none => []
  | some v => v.atoms

def Item.atomsAll : List (Item ρ) → List (Atom ρ)
  | [] => []
  | x :: xs => x.atoms ++ Item.atomsAll xs

def Entry.atomsAll : List (Entry ρ) → List (Atom ρ)
  | [] => []
  | x :: xs => x.atoms ++ Entry.atomsAll xs

end

theorem Piece.atomsAll_eq (pieces : List (Piece ρ)) :
    Piece.atomsAll pieces = pieces.flatMap Piece.atoms := by
  induction pieces with
  | nil => rfl
  | cons piece pieces ih => rw [Piece.atomsAll, ih, List.flatMap_cons]

theorem Text.atomsAll_eq (texts : List (Text ρ)) :
    Text.atomsAll texts = texts.flatMap fun t => .name t :: t.atoms := by
  induction texts with
  | nil => rfl
  | cons text texts ih => rw [Text.atomsAll, ih, List.flatMap_cons, List.cons_append]

theorem Item.atomsAll_eq (xs : List (Item ρ)) : Item.atomsAll xs = xs.flatMap Item.atoms := by
  induction xs with
  | nil => rfl
  | cons x xs ih => rw [Item.atomsAll, ih, List.flatMap_cons]

theorem Entry.atomsAll_eq (xs : List (Entry ρ)) : Entry.atomsAll xs = xs.flatMap Entry.atoms := by
  induction xs with
  | nil => rfl
  | cons x xs ih => rw [Entry.atomsAll, ih, List.flatMap_cons]

theorem Key.atoms_eq (k : Key ρ) : k.atoms =
    KeyPath.atoms? k.path ++ k.edges.flatMap Edge.atoms ++ KeyPath.atoms? k.edgePath ++
      k.primary.toList.flatMap Scalar.atoms ++ Value.atoms? k.value := by
  cases k
  rfl

/-! ## Other marks -/

def Atom.mapMarks (f : ρ → σ) : Atom ρ → Atom σ
  | .name t => .name (t.mapMarks f)
  | .scalar s => .scalar (s.mapMarks f)
  | .insertion s => .insertion (s.mapMarks f)
  | .spread s => .spread (s.mapMarks f)

section

variable {f : ρ → σ} {pieces : List (Piece ρ)} {value raw : String}

theorem Piece.literal_of_mapMarks {p : Piece ρ} (h : p.mapMarks f = .literal value raw) :
    p = .literal value raw := by
  cases p with
  | literal _ _ =>
    cases h
    rfl
  | substitution s => cases h

/-- The literals of a text do not change with its marks. -/
theorem Piece.literal_mem_of_mapMarks (h : .literal value raw ∈ Piece.mapMarksAll f pieces) :
    .literal value raw ∈ pieces := by
  rw [Piece.mapMarksAll_eq] at h
  obtain ⟨p, hp, hliteral⟩ := List.mem_map.mp h
  exact Piece.literal_of_mapMarks hliteral ▸ hp

end

section

variable (f : ρ → σ)

mutual

theorem Text.atoms_mapMarks : (t : Text ρ) →
    (t.mapMarks f).atoms = t.atoms.map (Atom.mapMarks f)
  | .unquoted _ pieces | .doubleQuoted _ pieces => Piece.atomsAll_mapMarksAll pieces
  | .singleQuoted _ _ | .block _ _ _ _ => rfl

theorem Piece.atoms_mapMarks : (p : Piece ρ) →
    (p.mapMarks f).atoms = p.atoms.map (Atom.mapMarks f)
  | .literal _ _ => rfl
  | .substitution s => congrArg (_ :: ·) (Substitution.atoms_mapMarks s)

theorem Substitution.atoms_mapMarks : (s : Substitution ρ) →
    (s.mapMarks f).atoms = s.atoms.map (Atom.mapMarks f)
  | ⟨_, _, path⟩ => Text.atomsAll_mapMarksAll path

theorem Piece.atomsAll_mapMarksAll : (ps : List (Piece ρ)) →
    Piece.atomsAll (Piece.mapMarksAll f ps) = (Piece.atomsAll ps).map (Atom.mapMarks f)
  | [] => rfl
  | p :: ps => by
    rw [Piece.mapMarksAll, Piece.atomsAll, Piece.atomsAll, List.map_append, Piece.atoms_mapMarks p,
      Piece.atomsAll_mapMarksAll ps]

theorem Text.atomsAll_mapMarksAll : (ts : List (Text ρ)) →
    Text.atomsAll (Text.mapMarksAll f ts) = (Text.atomsAll ts).map (Atom.mapMarks f)
  | [] => rfl
  | t :: ts => by
    rw [Text.mapMarksAll, Text.atomsAll, Text.atomsAll, List.map_cons, List.map_append,
      Text.atoms_mapMarks t, Text.atomsAll_mapMarksAll ts, Atom.mapMarks]

end

theorem KeyPath.atoms?_mapMarks (path : Option (KeyPath ρ)) :
    KeyPath.atoms? (path.map (KeyPath.mapMarks f)) =
      (KeyPath.atoms? path).map (Atom.mapMarks f) := by
  cases path with
  | none => rfl
  | some path =>
    simpa [KeyPath.atoms?, KeyPath.atoms, KeyPath.mapMarks] using
      Text.atomsAll_mapMarksAll f path.segments

theorem Edge.atoms_mapMarks (e : Edge ρ) :
    (e.mapMarks f).atoms = e.atoms.map (Atom.mapMarks f) := by
  rw [Edge.atoms, Edge.atoms, List.map_append, ← KeyPath.atoms?_mapMarks, ← KeyPath.atoms?_mapMarks]
  rfl

theorem Scalar.atoms_mapMarks (s : Scalar ρ) :
    (s.mapMarks f).atoms = s.atoms.map (Atom.mapMarks f) := by
  cases s with
  | text t => exact congrArg (_ :: ·) (Text.atoms_mapMarks f t)
  | null _ | boolean _ _ | number _ _ _ => rfl

mutual

theorem Value.atoms_mapMarks : (v : Value ρ) →
    (v.mapMarks f).atoms = v.atoms.map (Atom.mapMarks f)
  | .scalar s => Scalar.atoms_mapMarks f s
  | .sequence s => Sequence.atoms_mapMarks s
  | .map m => Map.atoms_mapMarks m

theorem Sequence.atoms_mapMarks : (s : Sequence ρ) →
    (s.mapMarks f).atoms = s.atoms.map (Atom.mapMarks f)
  | ⟨_, items⟩ => Item.atomsAll_mapMarksAll items

/-- Changing the marks of a tree changes those of its atoms. -/
theorem Map.atoms_mapMarks : (m : Map ρ) →
    (m.mapMarks f).atoms = m.atoms.map (Atom.mapMarks f)
  | ⟨_, entries⟩ => Entry.atomsAll_mapMarksAll entries

theorem Item.atoms_mapMarks : (x : Item ρ) →
    (x.mapMarks f).atoms = x.atoms.map (Atom.mapMarks f)
  | .comment _ | .blockComment _ => rfl
  | .substitution s => congrArg (_ :: ·) (Substitution.atoms_mapMarks f s)
  | .value v => Value.atoms_mapMarks v

theorem Entry.atoms_mapMarks : (x : Entry ρ) →
    (x.mapMarks f).atoms = x.atoms.map (Atom.mapMarks f)
  | .comment _ | .blockComment _ => rfl
  | .substitution s => congrArg (_ :: ·) (Substitution.atoms_mapMarks f s)
  | .key k => Key.atoms_mapMarks k

theorem Key.atoms_mapMarks : (k : Key ρ) →
    (k.mapMarks f).atoms = k.atoms.map (Atom.mapMarks f)
  | ⟨_, _, path, edges, _, edgePath, primary, value⟩ => by
    have hedges : (edges.map (Edge.mapMarks f)).flatMap Edge.atoms =
        (edges.flatMap Edge.atoms).map (Atom.mapMarks f) := by
      simp only [List.flatMap_map, List.map_flatMap, Edge.atoms_mapMarks]
    have hprimary : (primary.map (Scalar.mapMarks f)).toList.flatMap Scalar.atoms =
        (primary.toList.flatMap Scalar.atoms).map (Atom.mapMarks f) := by
      cases primary with
      | none => rfl
      | some s => simpa using Scalar.atoms_mapMarks f s
    rw [Key.mapMarks, Key.atoms, Key.atoms, KeyPath.atoms?_mapMarks, KeyPath.atoms?_mapMarks,
      hedges, hprimary, Value.atoms?_mapMarks? value]
    simp only [List.map_append]

theorem Value.atoms?_mapMarks? : (v : Option (Value ρ)) →
    Value.atoms? (Value.mapMarks? f v) = (Value.atoms? v).map (Atom.mapMarks f)
  | none => rfl
  | some v => Value.atoms_mapMarks v

theorem Item.atomsAll_mapMarksAll : (xs : List (Item ρ)) →
    Item.atomsAll (Item.mapMarksAll f xs) = (Item.atomsAll xs).map (Atom.mapMarks f)
  | [] => rfl
  | x :: xs => by
    rw [Item.mapMarksAll, Item.atomsAll, Item.atomsAll, List.map_append, Item.atoms_mapMarks x,
      Item.atomsAll_mapMarksAll xs]

theorem Entry.atomsAll_mapMarksAll : (xs : List (Entry ρ)) →
    Entry.atomsAll (Entry.mapMarksAll f xs) = (Entry.atomsAll xs).map (Atom.mapMarks f)
  | [] => rfl
  | x :: xs => by
    rw [Entry.mapMarksAll, Entry.atomsAll, Entry.atomsAll, List.map_append, Entry.atoms_mapMarks x,
      Entry.atomsAll_mapMarksAll xs]

end

end

/-! ## Texts among the atoms -/

/-- The text that an atom is, unless it is another scalar or a substitution. -/
def Atom.text? : Atom ρ → Option (Text ρ)
  | .name t | .scalar (.text t) => some t
  | .scalar _ | .insertion _ | .spread _ => none

theorem Atom.text?_mapMarks (f : ρ → σ) (x : Atom ρ) :
    (x.mapMarks f).text? = x.text?.map (Text.mapMarks f) := by
  cases x with
  | scalar s => cases s <;> rfl
  | name _ | insertion _ | spread _ => rfl

/-! ## What holds of all atoms -/

/-- All of the atoms have `A`. -/
def Atom.All (A : Atom ρ → Prop) (xs : List (Atom ρ)) : Prop :=
  ∀ x ∈ xs, A x

section

variable {A : Atom ρ → Prop}

@[simp] theorem Atom.all_nil : Atom.All A [] := by
  simp [Atom.All]

@[simp] theorem Atom.all_cons {x : Atom ρ} {xs : List (Atom ρ)} :
    Atom.All A (x :: xs) ↔ A x ∧ Atom.All A xs :=
  List.forall_mem_cons

@[simp] theorem Atom.all_append {xs ys : List (Atom ρ)} :
    Atom.All A (xs ++ ys) ↔ Atom.All A xs ∧ Atom.All A ys :=
  List.forall_mem_append

/-- The order of pieces and texts does not matter, nor does that of items and entries. -/
theorem Atom.all_reverse_pieces {pieces : List (Piece ρ)} :
    Atom.All A (Piece.atomsAll pieces.reverse) ↔ Atom.All A (Piece.atomsAll pieces) := by
  simp only [Atom.All, Piece.atomsAll_eq, List.mem_flatMap, List.mem_reverse]

theorem Atom.all_reverse_names {ts : List (Text ρ)} :
    Atom.All A (Text.atomsAll ts.reverse) ↔ Atom.All A (Text.atomsAll ts) := by
  simp only [Atom.All, Text.atomsAll_eq, List.mem_flatMap, List.mem_reverse]

theorem Atom.all_reverse_items {items : List (Item ρ)} :
    Atom.All A (Item.atomsAll items.reverse) ↔ Atom.All A (Item.atomsAll items) := by
  simp only [Atom.All, Item.atomsAll_eq, List.mem_flatMap, List.mem_reverse]

theorem Atom.all_reverse_entries {entries : List (Entry ρ)} :
    Atom.All A (Entry.atomsAll entries.reverse) ↔ Atom.All A (Entry.atomsAll entries) := by
  simp only [Atom.All, Entry.atomsAll_eq, List.mem_flatMap, List.mem_reverse]

/-- The parts of a key, each of which may be replaced by itself. -/
theorem Key.all_atoms {k : Key ρ} : Atom.All A k.atoms ↔
    Atom.All A (KeyPath.atoms? k.path) ∧ Atom.All A (k.edges.flatMap Edge.atoms) ∧
      Atom.All A (KeyPath.atoms? k.edgePath) ∧
      Atom.All A (k.primary.toList.flatMap Scalar.atoms) ∧
      Atom.All A (Value.atoms? k.value) := by
  simp only [Key.atoms_eq, Atom.all_append, and_assoc]

end

end Diagram
