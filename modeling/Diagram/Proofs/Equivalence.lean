import Diagram.Proofs.Marks
import Diagram.Tree.Equality
import Diagram.Tree.Equivalence

/-!
Equivalence of keys is equality of what they say. The gist of a key holds what the comparison looks
at: the names of the path, how many edges there are, which parts are present, and what the value
says. Marks, written forms, comments, edges, indexes and the elements of sequences leave no trace in
it, so keys that differ in nothing else are equivalent.
-/
namespace Diagram

mutual

/-- What a key says. -/
inductive Gist where
  | key (path : Option (List String)) (edges : Nat) (indexed pathed : Bool)
    (value : Option ValueGist)

/-- What a value says. Of the entries of a map only the keys say something. -/
inductive ValueGist where
  | scalar (content : String)
  | sequence (length : Nat)
  | map (entries : List (Option Gist))

end

variable {ρ σ : Type}

mutual

def Key.gist : Key ρ → Gist
  | ⟨_, _, path, edges, edgeIndex, edgePath, _, value⟩ =>
    .key (path.map KeyPath.names) edges.length edgeIndex.isSome edgePath.isSome (Value.gist? value)
termination_by structural k => k

def Value.gist? : Option (Value ρ) → Option ValueGist
  | none => none
  | some v => some v.gist
termination_by structural v => v

def Value.gist : Value ρ → ValueGist
  | .scalar s => .scalar s.content
  | .sequence s => .sequence s.items.length
  | .map m => .map m.gists
termination_by structural v => v

def Map.gists : Map ρ → List (Option Gist)
  | ⟨_, entries⟩ => Entry.gists entries
termination_by structural m => m

def Entry.gists : List (Entry ρ) → List (Option Gist)
  | [] => []
  | e :: es => e.gist? :: Entry.gists es
termination_by structural es => es

def Entry.gist? : Entry ρ → Option Gist
  | .key k => some k.gist
  | .comment _ | .blockComment _ | .substitution _ => none
termination_by structural e => e

end

theorem Entry.gists_eq (entries : List (Entry ρ)) :
    Entry.gists entries = entries.map Entry.gist? := by
  induction entries with
  | nil => rfl
  | cons e es ih => rw [Entry.gists, ih, List.map_cons]

theorem Key.gist_eq (k : Key ρ) : k.gist =
    .key (k.path.map KeyPath.names) k.edges.length k.edgeIndex.isSome k.edgePath.isSome
      (k.value.map Value.gist) := by
  obtain ⟨_, _, path, edges, edgeIndex, edgePath, _, value⟩ := k
  cases value <;> rfl

/-- Paths that agree, where both or none are there, have the same names. -/
theorem KeyPath.agree_iff (p q : Option (KeyPath ρ)) :
    p.isSome = q.isSome ∧ KeyPath.agree p q = true ↔ p.map KeyPath.names = q.map KeyPath.names := by
  cases p <;> cases q <;> simp [KeyPath.agree]

/-! ## Equivalent keys have the same gist -/

mutual

/-- **Equivalence is sameness of the gist.** -/
theorem Key.equivalent_iff : ∀ a b : Key ρ, a.equivalent b = true ↔ a.gist = b.gist
  | ⟨_, _, path, edges, edgeIndex, edgePath, _, value⟩,
    ⟨_, _, path', edges', edgeIndex', edgePath', _, value'⟩ => by
    have hpath := KeyPath.agree_iff path path'
    have hvalue := Value.equivalent?_iff value value'
    simp only [Key.equivalent, Key.gist, Bool.and_eq_true, beq_iff_eq, Gist.key.injEq, hvalue,
      ← hpath]
    constructor
    · rintro ⟨⟨⟨⟨⟨hsome, hindex⟩, hedgePath⟩, hedges⟩, hagree⟩, hgist⟩
      exact ⟨⟨hsome, hagree⟩, hedges, hindex, hedgePath, hgist⟩
    · rintro ⟨⟨hsome, hagree⟩, hedges, hindex, hedgePath, hgist⟩
      exact ⟨⟨⟨⟨⟨hsome, hindex⟩, hedgePath⟩, hedges⟩, hagree⟩, hgist⟩
termination_by structural a => a

theorem Value.equivalent?_iff : ∀ a b : Option (Value ρ),
    Value.equivalent? a b = true ↔ Value.gist? a = Value.gist? b
  | none, none | none, some _ | some _, none => by simp [Value.equivalent?, Value.gist?]
  | some v, some v' => by simp [Value.equivalent?, Value.gist?, Value.equivalent_iff v v']
termination_by structural a => a

theorem Value.equivalent_iff : ∀ a b : Value ρ, a.equivalent b = true ↔ a.gist = b.gist
  | .scalar _, .scalar _ | .sequence _, .sequence _ => by simp [Value.equivalent, Value.gist]
  | .map m, .map m' => by simp [Value.equivalent, Value.gist, Map.equivalent_iff m m']
  | .scalar _, .sequence _ | .scalar _, .map _ | .sequence _, .scalar _ | .sequence _, .map _
  | .map _, .scalar _ | .map _, .sequence _ => by simp [Value.equivalent, Value.gist]
termination_by structural a => a

theorem Map.equivalent_iff : ∀ a b : Map ρ, a.equivalent b = true ↔ a.gists = b.gists
  | ⟨_, entries⟩, ⟨_, entries'⟩ => Entry.equivalentAll_iff entries entries'
termination_by structural a => a

theorem Entry.equivalentAll_iff : ∀ as bs : List (Entry ρ),
    Entry.equivalentAll as bs = true ↔ Entry.gists as = Entry.gists bs
  | [], [] | [], _ :: _ | _ :: _, [] => by simp [Entry.equivalentAll, Entry.gists]
  | a :: as, b :: bs => by
    simp [Entry.equivalentAll, Entry.gists, Entry.equivalent_iff a b,
      Entry.equivalentAll_iff as bs]
termination_by structural as => as

theorem Entry.equivalent_iff : ∀ a b : Entry ρ, a.equivalent b = true ↔ a.gist? = b.gist?
  | .key k, .key k' => by simp [Entry.equivalent, Entry.gist?, Key.equivalent_iff k k']
  | .key _, .comment _ | .key _, .blockComment _ | .key _, .substitution _
  | .comment _, .key _ | .blockComment _, .key _ | .substitution _, .key _
  | .comment _, .comment _ | .comment _, .blockComment _ | .comment _, .substitution _
  | .blockComment _, .comment _ | .blockComment _, .blockComment _
  | .blockComment _, .substitution _ | .substitution _, .comment _
  | .substitution _, .blockComment _ | .substitution _, .substitution _ => by
    simp [Entry.equivalent, Entry.gist?]
termination_by structural a => a

end

/-! ## Marks say nothing -/

theorem Scalar.content_mapMarks (f : ρ → σ) (s : Scalar ρ) :
    (s.mapMarks f).content = s.content := by
  cases s with
  | null _ | boolean _ _ | number _ _ _ => rfl
  | text t => exact Text.content_mapMarks f t

theorem KeyPath.names_mapMarks (f : ρ → σ) (path : KeyPath ρ) :
    (path.mapMarks f).names = path.names := by
  simp only [KeyPath.names, KeyPath.mapMarks, Text.mapMarksAll_eq, List.map_map,
    Function.comp_def, Text.content_mapMarks]

mutual

theorem Key.gist_mapMarks (f : ρ → σ) : (k : Key ρ) → (k.mapMarks f).gist = k.gist
  | ⟨_, _, path, edges, edgeIndex, edgePath, _, value⟩ => by
    have hvalue := Value.gist?_mapMarks? f value
    simp only [Key.mapMarks, Key.gist, Option.map_map, Function.comp_def, KeyPath.names_mapMarks,
      List.length_map, Option.isSome_map, hvalue]

theorem Value.gist?_mapMarks? (f : ρ → σ) : (v : Option (Value ρ)) →
    Value.gist? (Value.mapMarks? f v) = Value.gist? v
  | none => rfl
  | some v => congrArg some (Value.gist_mapMarks f v)

theorem Value.gist_mapMarks (f : ρ → σ) : (v : Value ρ) → (v.mapMarks f).gist = v.gist
  | .scalar s => congrArg ValueGist.scalar (Scalar.content_mapMarks f s)
  | .sequence ⟨_, items⟩ => by
    simp only [Value.mapMarks, Sequence.mapMarks, Value.gist, Item.mapMarksAll_eq, List.length_map]
  | .map m => congrArg ValueGist.map (Map.gists_mapMarks f m)

theorem Map.gists_mapMarks (f : ρ → σ) : (m : Map ρ) → (m.mapMarks f).gists = m.gists
  | ⟨_, entries⟩ => Entry.gists_mapMarksAll f entries

theorem Entry.gists_mapMarksAll (f : ρ → σ) : (es : List (Entry ρ)) →
    Entry.gists (Entry.mapMarksAll f es) = Entry.gists es
  | [] => rfl
  | e :: es => congr (congrArg List.cons (Entry.gist?_mapMarks f e)) (Entry.gists_mapMarksAll f es)

theorem Entry.gist?_mapMarks (f : ρ → σ) : (e : Entry ρ) → (e.mapMarks f).gist? = e.gist?
  | .comment _ | .blockComment _ | .substitution _ => rfl
  | .key k => congrArg some (Key.gist_mapMarks f k)

end

/-! ## Segments written in another form -/

/-- One segment of a path is replaced by a text that stands for the same. -/
inductive KeyPath.Respelled : KeyPath ρ → KeyPath ρ → Prop
  | segment (range : ρ) (front back : List (Text ρ)) (t t' : Text ρ)
    (same : t'.content = t.content) :
    KeyPath.Respelled ⟨range, front ++ t :: back⟩ ⟨range, front ++ t' :: back⟩

/-- A path at one of the ends of an edge has a segment replaced. -/
inductive Edge.Respelled : Edge ρ → Edge ρ → Prop
  | source (e : Edge ρ) (p p' : KeyPath ρ) (found : e.source = some p) (change : p.Respelled p') :
    Edge.Respelled e { e with source := some p' }
  | target (e : Edge ρ) (p p' : KeyPath ρ) (found : e.target = some p) (change : p.Respelled p') :
    Edge.Respelled e { e with target := some p' }

mutual

/-- One segment of one path of a key, or of a key somewhere in its value, is replaced by a text that
stands for the same. -/
inductive Key.Respelled : Key ρ → Key ρ → Prop
  | path (k : Key ρ) (p p' : KeyPath ρ) (found : k.path = some p) (change : p.Respelled p') :
    Key.Respelled k { k with path := some p' }
  | edgePath (k : Key ρ) (p p' : KeyPath ρ) (found : k.edgePath = some p)
    (change : p.Respelled p') : Key.Respelled k { k with edgePath := some p' }
  | edge (k : Key ρ) (front back : List (Edge ρ)) (e e' : Edge ρ)
    (found : k.edges = front ++ e :: back) (change : e.Respelled e') :
    Key.Respelled k { k with edges := front ++ e' :: back }
  | value (k : Key ρ) (v v' : Value ρ) (found : k.value = some v) (change : v.Respelled v') :
    Key.Respelled k { k with value := some v' }

inductive Value.Respelled : Value ρ → Value ρ → Prop
  | entry (range : ρ) (front back : List (Entry ρ)) (k k' : Key ρ) (change : k.Respelled k') :
    Value.Respelled (.map ⟨range, front ++ .key k :: back⟩) (.map ⟨range, front ++ .key k' :: back⟩)
  | item (range : ρ) (front back : List (Item ρ)) (v v' : Value ρ) (change : v.Respelled v') :
    Value.Respelled (.sequence ⟨range, front ++ .value v :: back⟩)
      (.sequence ⟨range, front ++ .value v' :: back⟩)

end

theorem KeyPath.Respelled.names {p p' : KeyPath ρ} (h : p.Respelled p') : p'.names = p.names := by
  obtain ⟨range, front, back, t, t', same⟩ := h
  simp only [KeyPath.names, List.map_append, List.map_cons, same]

mutual

theorem Key.Respelled.gist {k k' : Key ρ} : k.Respelled k' → k'.gist = k.gist
  | .path k p p' found change => by
    simp only [Key.gist_eq, found, Option.map_some, change.names]
  | .edgePath k p p' found change => by
    simp only [Key.gist_eq, found, Option.isSome_some]
  | .edge k front back e e' found change => by
    simp only [Key.gist_eq, found, List.length_append, List.length_cons]
  | .value k v v' found change => by
    have hvalue := change.gist
    simp only [Key.gist_eq, found, Option.map_some, hvalue]

theorem Value.Respelled.gist {v v' : Value ρ} : v.Respelled v' → v'.gist = v.gist
  | .entry range front back k k' change => by
    have hkey := change.gist
    simp only [Value.gist, Map.gists, Entry.gists_eq, List.map_append, List.map_cons, Entry.gist?,
      hkey]
  | .item range front back v v' change => by
    simp only [Value.gist, List.length_append, List.length_cons]

end

/-- **Equivalence is coarser than equality.** It is an equivalence relation, it does not see marks,
and it does not see in which form a segment of a path is written, however deep the path is. -/
theorem Key.equivalent_coarse (a b c : Key ρ) :
    a.equivalent a = true ∧
    (a.equivalent b = true → b.equivalent a = true) ∧
    (a.equivalent b = true → b.equivalent c = true → a.equivalent c = true) ∧
    (a.mapMarks (fun _ => ()) = b.mapMarks (fun _ => ()) → a.equivalent b = true) ∧
    (a.Respelled b → a.equivalent b = true) := by
  simp only [Key.equivalent_iff]
  refine ⟨trivial, Eq.symm, Eq.trans, fun hmarks => ?_, fun hrespelled => hrespelled.gist.symm⟩
  calc a.gist = (a.mapMarks fun _ => ()).gist := (Key.gist_mapMarks _ a).symm
    _ = (b.mapMarks fun _ => ()).gist := congrArg Key.gist hmarks
    _ = b.gist := Key.gist_mapMarks _ b

/-- A map that holds `b c` in one form and in another, and elsewhere. -/
theorem Key.equivalent_coarse_nested :
    let plain : Key Nat := { Key.empty 0 with
      path := some ⟨0, [.unquoted 0 [.literal "b c" "b\\ c"]]⟩ }
    let quoted : Key Nat := { Key.empty 0 with path := some ⟨0, [.singleQuoted 0 "b c"]⟩ }
    let within (k : Key Nat) : Key Nat :=
      { Key.empty 0 with value := some (.map ⟨0, [.key k]⟩) }
    let moved := (within quoted).mapMarks (· + 1)
    within plain ≠ within quoted ∧ (within quoted).equivalent (within plain) = true ∧
      (within plain).equivalent moved = true := by
  intro plain quoted within moved
  have hrespelled : (within plain).Respelled (within quoted) :=
    .value _ _ _ rfl (.entry 0 [] [] plain quoted (.path plain _ _ rfl (.segment 0 [] [] _ _ rfl)))
  have hmarks : (within quoted).mapMarks (fun _ => ()) = moved.mapMarks (fun _ => ()) := rfl
  obtain ⟨-, hsymm, htrans, -, hforms⟩ :=
    Key.equivalent_coarse (within plain) (within quoted) moved
  obtain ⟨-, -, -, herased, -⟩ := Key.equivalent_coarse (within quoted) moved moved
  have hquoted := hforms hrespelled
  exact ⟨by decide, hsymm hquoted, htrans hquoted (herased hmarks)⟩

end Diagram
