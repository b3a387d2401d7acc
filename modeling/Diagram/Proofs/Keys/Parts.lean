import Diagram.Diagnostic.Code
import Diagram.Tree.Mark
import Mathlib.Data.List.Chain

/-!
The keys and the maps of a tree, in the order they are written, and what a key has to look like:
what it names is not empty, its edges are a chain, and what is missing of an edge has been reported.
-/
namespace Diagram

variable {ρ σ : Type}

/-- A key or a map in a tree. -/
inductive Part (ρ : Type) where
  | key (key : Key ρ)
  | map (map : Map ρ)

/-! ## The parts of a tree -/

mutual

def Value.parts : Value ρ → List (Part ρ)
  | .scalar _ => []
  | .sequence s => s.parts
  | .map m => m.parts

def Sequence.parts : Sequence ρ → List (Part ρ)
  | ⟨_, items⟩ => Item.partsAll items

/-- The map itself, and the keys and maps inside of it. -/
def Map.parts : Map ρ → List (Part ρ)
  | ⟨range, entries⟩ => .map ⟨range, entries⟩ :: Entry.partsAll entries

def Item.parts : Item ρ → List (Part ρ)
  | .comment _ | .blockComment _ | .substitution _ => []
  | .value v => v.parts

def Entry.parts : Entry ρ → List (Part ρ)
  | .comment _ | .blockComment _ | .substitution _ => []
  | .key k => k.parts

def Key.parts : Key ρ → List (Part ρ)
  | ⟨range, ampersand, path, edges, edgeIndex, edgePath, primary, value⟩ =>
    .key ⟨range, ampersand, path, edges, edgeIndex, edgePath, primary, value⟩ :: Value.parts? value

def Value.parts? : Option (Value ρ) → List (Part ρ)
  | none => []
  | some v => v.parts

def Item.partsAll : List (Item ρ) → List (Part ρ)
  | [] => []
  | x :: xs => x.parts ++ Item.partsAll xs

def Entry.partsAll : List (Entry ρ) → List (Part ρ)
  | [] => []
  | x :: xs => x.parts ++ Entry.partsAll xs

end

theorem Map.parts_eq (m : Map ρ) : m.parts = .map m :: Entry.partsAll m.entries := by
  cases m
  rfl

theorem Key.parts_eq (k : Key ρ) : k.parts = .key k :: Value.parts? k.value := by
  cases k
  rfl

theorem Item.partsAll_eq (xs : List (Item ρ)) : Item.partsAll xs = xs.flatMap Item.parts := by
  induction xs with
  | nil => rfl
  | cons x xs ih => rw [Item.partsAll, ih, List.flatMap_cons]

theorem Entry.partsAll_eq (xs : List (Entry ρ)) : Entry.partsAll xs = xs.flatMap Entry.parts := by
  induction xs with
  | nil => rfl
  | cons x xs ih => rw [Entry.partsAll, ih, List.flatMap_cons]

theorem Item.partsAll_append (xs ys : List (Item ρ)) :
    Item.partsAll (xs ++ ys) = Item.partsAll xs ++ Item.partsAll ys := by
  simp only [Item.partsAll_eq, List.flatMap_append]

theorem Entry.partsAll_append (xs ys : List (Entry ρ)) :
    Entry.partsAll (xs ++ ys) = Entry.partsAll xs ++ Entry.partsAll ys := by
  simp only [Entry.partsAll_eq, List.flatMap_append]

/-! ## Other marks -/

def Part.mapMarks (f : ρ → σ) : Part ρ → Part σ
  | .key k => .key (k.mapMarks f)
  | .map m => .map (m.mapMarks f)

section

variable (f : ρ → σ)

mutual

theorem Value.parts_mapMarks : (v : Value ρ) →
    (v.mapMarks f).parts = v.parts.map (Part.mapMarks f)
  | .scalar _ => rfl
  | .sequence s => Sequence.parts_mapMarks s
  | .map m => Map.parts_mapMarks m

theorem Sequence.parts_mapMarks : (s : Sequence ρ) →
    (s.mapMarks f).parts = s.parts.map (Part.mapMarks f)
  | ⟨_, items⟩ => Item.partsAll_mapMarksAll items

/-- Changing the marks of a tree changes those of its keys and maps. -/
theorem Map.parts_mapMarks : (m : Map ρ) →
    (m.mapMarks f).parts = m.parts.map (Part.mapMarks f)
  | ⟨_, entries⟩ => congrArg (_ :: ·) (Entry.partsAll_mapMarksAll entries)

theorem Item.parts_mapMarks : (x : Item ρ) →
    (x.mapMarks f).parts = x.parts.map (Part.mapMarks f)
  | .comment _ | .blockComment _ | .substitution _ => rfl
  | .value v => Value.parts_mapMarks v

theorem Entry.parts_mapMarks : (x : Entry ρ) →
    (x.mapMarks f).parts = x.parts.map (Part.mapMarks f)
  | .comment _ | .blockComment _ | .substitution _ => rfl
  | .key k => Key.parts_mapMarks k

theorem Key.parts_mapMarks : (k : Key ρ) →
    (k.mapMarks f).parts = k.parts.map (Part.mapMarks f)
  | ⟨_, _, _, _, _, _, _, value⟩ => congrArg (_ :: ·) (Value.parts?_mapMarks? value)

theorem Value.parts?_mapMarks? : (v : Option (Value ρ)) →
    Value.parts? (Value.mapMarks? f v) = (Value.parts? v).map (Part.mapMarks f)
  | none => rfl
  | some v => Value.parts_mapMarks v

theorem Item.partsAll_mapMarksAll : (xs : List (Item ρ)) →
    Item.partsAll (Item.mapMarksAll f xs) = (Item.partsAll xs).map (Part.mapMarks f)
  | [] => rfl
  | x :: xs => by
    rw [Item.mapMarksAll, Item.partsAll, Item.partsAll, List.map_append, Item.parts_mapMarks x,
      Item.partsAll_mapMarksAll xs]

theorem Entry.partsAll_mapMarksAll : (xs : List (Entry ρ)) →
    Entry.partsAll (Entry.mapMarksAll f xs) = (Entry.partsAll xs).map (Part.mapMarks f)
  | [] => rfl
  | x :: xs => by
    rw [Entry.mapMarksAll, Entry.partsAll, Entry.partsAll, List.map_append, Entry.parts_mapMarks x,
      Entry.partsAll_mapMarksAll xs]

end

end

/-! ## What a key looks like -/

/-- An edge whose ends fit; `reported` tells of a range where a code has been reported. -/
structure Edge.Formed (reported : Code → ρ → Prop) (e : Edge ρ) : Prop where
  source : ∀ path ∈ e.source, path.segments ≠ []
  target : ∀ path ∈ e.target, path.segments ≠ []
  /-- A source that is missing is reported, as `E030`. -/
  missingSource : e.source = none → reported .missingSource e.range
  /-- A target that is missing is reported, as `E031`. -/
  missingTarget : e.target = none → reported .missingTarget e.range

/-- Edges whose ends fit, each of them linked to the next. -/
structure Edge.Chained (reported : Code → ρ → Prop) (edges : List (Edge ρ)) : Prop where
  formed : ∀ e ∈ edges, e.Formed reported
  /-- An edge starts where the one in front of it ends. -/
  linked : edges.IsChain fun e next => next.source = e.target

/-- A key whose parts fit together. -/
structure Key.Formed (reported : Code → ρ → Prop) (k : Key ρ) : Prop where
  path : ∀ path ∈ k.path, path.segments ≠ []
  edgePath : ∀ path ∈ k.edgePath, path.segments ≠ []
  edges : Edge.Chained reported k.edges
  /-- Behind a primary scalar there is a map. -/
  primary : k.primary.isSome → ∃ m, k.value = some (.map m)

variable {reported : Code → ρ → Prop}

/-- What has been reported in one way has been in the other. -/
theorem Edge.Formed.mono {reported' : Code → ρ → Prop} {e : Edge ρ} (h : e.Formed reported)
    (hreported : ∀ code range, reported code range → reported' code range) :
    e.Formed reported' :=
  ⟨h.source, h.target, fun hnone => hreported _ _ (h.missingSource hnone),
    fun hnone => hreported _ _ (h.missingTarget hnone)⟩

theorem Edge.Chained.mono {reported' : Code → ρ → Prop} {edges : List (Edge ρ)}
    (h : Edge.Chained reported edges)
    (hreported : ∀ code range, reported code range → reported' code range) :
    Edge.Chained reported' edges :=
  ⟨fun e he => (h.formed e he).mono hreported, h.linked⟩

theorem Key.Formed.mono {reported' : Code → ρ → Prop} {k : Key ρ} (h : k.Formed reported)
    (hreported : ∀ code range, reported code range → reported' code range) :
    k.Formed reported' :=
  ⟨h.path, h.edgePath, h.edges.mono hreported, h.primary⟩

section

variable {f : ρ → σ} {reported' : Code → σ → Prop}

theorem KeyPath.segments_mapMarks {path : Option (KeyPath ρ)} (h : ∀ x ∈ path, x.segments ≠ []) :
    ∀ x ∈ path.map (KeyPath.mapMarks f), x.segments ≠ [] := by
  intro x hx
  obtain ⟨y, hy, rfl⟩ := Option.map_eq_some_iff.mp hx
  simpa [KeyPath.mapMarks, Text.mapMarksAll_eq] using h y hy

/-- The ends of an edge fit whatever its marks are. -/
theorem Edge.Formed.mapMarks {e : Edge ρ} (h : e.Formed reported)
    (hreported : ∀ code range, reported code range → reported' code (f range)) :
    (e.mapMarks f).Formed reported' :=
  ⟨KeyPath.segments_mapMarks h.source, KeyPath.segments_mapMarks h.target,
    fun hnone => hreported _ _ (h.missingSource (Option.map_eq_none_iff.mp hnone)),
    fun hnone => hreported _ _ (h.missingTarget (Option.map_eq_none_iff.mp hnone))⟩

theorem Edge.Chained.mapMarks {edges : List (Edge ρ)} (h : Edge.Chained reported edges)
    (hreported : ∀ code range, reported code range → reported' code (f range)) :
    Edge.Chained reported' (edges.map (Edge.mapMarks f)) where
  formed e he := by
    obtain ⟨e, he', rfl⟩ := List.mem_map.mp he
    exact (h.formed e he').mapMarks hreported
  linked := by
    rw [List.isChain_map]
    exact h.linked.imp fun _ _ hlink => congrArg (Option.map (KeyPath.mapMarks f)) hlink

/-- The parts of a key fit whatever its marks are. -/
theorem Key.Formed.mapMarks {k : Key ρ} (h : k.Formed reported)
    (hreported : ∀ code range, reported code range → reported' code (f range)) :
    (k.mapMarks f).Formed reported' := by
  rw [Key.mapMarks_eq]
  refine ⟨KeyPath.segments_mapMarks h.path, KeyPath.segments_mapMarks h.edgePath,
    h.edges.mapMarks hreported, fun hsome => ?_⟩
  obtain ⟨m, hm⟩ := h.primary (by simpa using hsome)
  exact ⟨m.mapMarks f, congrArg (Option.map (Value.mapMarks f)) hm⟩

end

end Diagram
