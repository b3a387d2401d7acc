import Diagram.Tree.Mark

/-!
Where the nodes of a tree lie. With `cover i j` as the mark of the stretch from index `i` to index
`j`, `node.Within cover lo hi` says that the node is marked with a stretch between `lo` and `hi`,
that all its children lie within that stretch in the same way, and that children in a row follow
each other without overlap.
-/
namespace Diagram

variable {α ρ σ : Type}

/-- The mark `r` covers a stretch between `lo` and `hi`, and what is inside satisfies `inner`. -/
def Covers (cover : Nat → Nat → ρ) (r : ρ) (inner : Nat → Nat → Prop) (lo hi : Nat) : Prop :=
  ∃ i j, lo ≤ i ∧ i ≤ j ∧ j ≤ hi ∧ r = cover i j ∧ inner i j

/-- The elements of a list lie between `lo` and `hi`, each behind the one before. -/
def InOrder (within : α → Nat → Nat → Prop) : List α → Nat → Nat → Prop
  | [], lo, hi => lo ≤ hi
  | x :: xs, lo, hi => ∃ k, within x lo k ∧ InOrder within xs k hi

section

variable (cover : Nat → Nat → ρ)

def Comment.Within (comment : Comment ρ) : Nat → Nat → Prop :=
  Covers cover comment.range fun _ _ => True

mutual

def Text.Within : Text ρ → Nat → Nat → Prop
  | .unquoted range pieces => Covers cover range (Piece.AllInOrder pieces)
  | .doubleQuoted range pieces => Covers cover range (Piece.AllInOrder pieces)
  | .singleQuoted range _ => Covers cover range fun _ _ => True
  | .block range _ _ _ => Covers cover range fun _ _ => True

def Piece.Within : Piece ρ → Nat → Nat → Prop
  | .literal _ _ => fun lo hi => lo ≤ hi
  | .substitution s => s.Within

def Substitution.Within : Substitution ρ → Nat → Nat → Prop
  | ⟨range, _, path⟩ => Covers cover range (Text.AllInOrder path)

def Piece.AllInOrder : List (Piece ρ) → Nat → Nat → Prop
  | [] => fun lo hi => lo ≤ hi
  | piece :: pieces => fun lo hi => ∃ k, piece.Within lo k ∧ Piece.AllInOrder pieces k hi

def Text.AllInOrder : List (Text ρ) → Nat → Nat → Prop
  | [] => fun lo hi => lo ≤ hi
  | text :: texts => fun lo hi => ∃ k, text.Within lo k ∧ Text.AllInOrder texts k hi

end

def KeyPath.Within (path : KeyPath ρ) : Nat → Nat → Prop :=
  Covers cover path.range (Text.AllInOrder cover path.segments)

def Edge.Within (edge : Edge ρ) : Nat → Nat → Prop :=
  Covers cover edge.range fun i j =>
    (∀ path ∈ edge.source, path.Within cover i j) ∧ ∀ path ∈ edge.target, path.Within cover i j

def EdgeIndex.Within (index : EdgeIndex ρ) : Nat → Nat → Prop :=
  Covers cover index.range fun _ _ => True

def Scalar.Within : Scalar ρ → Nat → Nat → Prop
  | .null range => Covers cover range fun _ _ => True
  | .boolean range _ => Covers cover range fun _ _ => True
  | .number range _ _ => Covers cover range fun _ _ => True
  | .text t => t.Within cover

mutual

def Value.Within : Value ρ → Nat → Nat → Prop
  | .scalar s => s.Within cover
  | .sequence s => s.Within
  | .map m => m.Within

def Sequence.Within : Sequence ρ → Nat → Nat → Prop
  | ⟨range, items⟩ => Covers cover range (Item.AllInOrder items)

def Map.Within : Map ρ → Nat → Nat → Prop
  | ⟨range, entries⟩ => Covers cover range (Entry.AllInOrder entries)

def Item.Within : Item ρ → Nat → Nat → Prop
  | .comment c => c.Within cover
  | .blockComment c => c.Within cover
  | .substitution s => s.Within cover
  | .value v => v.Within

def Entry.Within : Entry ρ → Nat → Nat → Prop
  | .comment c => c.Within cover
  | .blockComment c => c.Within cover
  | .substitution s => s.Within cover
  | .key k => k.Within

def Key.Within : Key ρ → Nat → Nat → Prop
  | ⟨range, _, path, edges, edgeIndex, edgePath, primary, value⟩ =>
    Covers cover range fun i j =>
      (∀ p ∈ path, p.Within cover i j) ∧ (∀ e ∈ edges, e.Within cover i j) ∧
      (∀ x ∈ edgeIndex, x.Within cover i j) ∧ (∀ p ∈ edgePath, p.Within cover i j) ∧
      (∀ s ∈ primary, s.Within cover i j) ∧ Value.Within? value i j

def Value.Within? : Option (Value ρ) → Nat → Nat → Prop
  | none => fun _ _ => True
  | some value => value.Within

def Item.AllInOrder : List (Item ρ) → Nat → Nat → Prop
  | [] => fun lo hi => lo ≤ hi
  | item :: items => fun lo hi => ∃ k, item.Within lo k ∧ Item.AllInOrder items k hi

def Entry.AllInOrder : List (Entry ρ) → Nat → Nat → Prop
  | [] => fun lo hi => lo ≤ hi
  | entry :: entries => fun lo hi => ∃ k, entry.Within lo k ∧ Entry.AllInOrder entries k hi

end

end

/-! ## Room around a node -/

variable {cover : Nat → Nat → ρ} {lo hi lo' hi' : Nat}

theorem Covers.mono {r : ρ} {inner : Nat → Nat → Prop} (h : Covers cover r inner lo hi)
    (hlo : lo' ≤ lo) (hhi : hi ≤ hi') : Covers cover r inner lo' hi' := by
  obtain ⟨i, j, hi, hij, hj, hr, hin⟩ := h
  exact ⟨i, j, by omega, hij, by omega, hr, hin⟩

theorem Text.Within.mono {t : Text ρ} (h : t.Within cover lo hi) (hlo : lo' ≤ lo)
    (hhi : hi ≤ hi') : t.Within cover lo' hi' := by
  cases t <;> exact Covers.mono h hlo hhi

theorem Substitution.Within.mono {s : Substitution ρ} (h : s.Within cover lo hi) (hlo : lo' ≤ lo)
    (hhi : hi ≤ hi') : s.Within cover lo' hi' := by
  cases s
  exact Covers.mono h hlo hhi

theorem KeyPath.Within.mono {p : KeyPath ρ} (h : p.Within cover lo hi) (hlo : lo' ≤ lo)
    (hhi : hi ≤ hi') : p.Within cover lo' hi' :=
  Covers.mono h hlo hhi

theorem Edge.Within.mono {e : Edge ρ} (h : e.Within cover lo hi) (hlo : lo' ≤ lo)
    (hhi : hi ≤ hi') : e.Within cover lo' hi' :=
  Covers.mono h hlo hhi

theorem Scalar.Within.mono {s : Scalar ρ} (h : s.Within cover lo hi) (hlo : lo' ≤ lo)
    (hhi : hi ≤ hi') : s.Within cover lo' hi' := by
  cases s with
  | text t => exact Text.Within.mono h hlo hhi
  | _ => exact Covers.mono h hlo hhi

theorem Value.Within.mono {v : Value ρ} (h : v.Within cover lo hi) (hlo : lo' ≤ lo)
    (hhi : hi ≤ hi') : v.Within cover lo' hi' := by
  cases v with
  | scalar s => exact Scalar.Within.mono h hlo hhi
  | sequence s => cases s; exact Covers.mono h hlo hhi
  | map m => cases m; exact Covers.mono h hlo hhi

theorem Item.Within.mono {x : Item ρ} (h : x.Within cover lo hi) (hlo : lo' ≤ lo)
    (hhi : hi ≤ hi') : x.Within cover lo' hi' := by
  cases x with
  | comment c => exact Covers.mono h hlo hhi
  | blockComment c => exact Covers.mono h hlo hhi
  | substitution s => exact Substitution.Within.mono h hlo hhi
  | value v => exact Value.Within.mono h hlo hhi

theorem Key.Within.mono {k : Key ρ} (h : k.Within cover lo hi) (hlo : lo' ≤ lo)
    (hhi : hi ≤ hi') : k.Within cover lo' hi' := by
  cases k
  exact Covers.mono h hlo hhi

theorem Entry.Within.mono {x : Entry ρ} (h : x.Within cover lo hi) (hlo : lo' ≤ lo)
    (hhi : hi ≤ hi') : x.Within cover lo' hi' := by
  cases x with
  | comment c => exact Covers.mono h hlo hhi
  | blockComment c => exact Covers.mono h hlo hhi
  | substitution s => exact Substitution.Within.mono h hlo hhi
  | key k => exact Key.Within.mono h hlo hhi

/-! ## The order of bounds -/

theorem Covers.le {r : ρ} {inner : Nat → Nat → Prop} (h : Covers cover r inner lo hi) :
    lo ≤ hi := by
  obtain ⟨i, j, hi, hij, hj, -⟩ := h
  omega

theorem Text.Within.le {t : Text ρ} (h : t.Within cover lo hi) : lo ≤ hi := by
  cases t <;> exact Covers.le h

theorem Substitution.Within.le {s : Substitution ρ} (h : s.Within cover lo hi) : lo ≤ hi := by
  cases s
  exact Covers.le h

theorem Scalar.Within.le {s : Scalar ρ} (h : s.Within cover lo hi) : lo ≤ hi := by
  cases s with
  | text t => exact Text.Within.le h
  | null _ | boolean _ _ | number _ _ _ => exact Covers.le h

/-! ## Keys that are being read -/

/-- The parts of a key lie between `lo` and `hi`. -/
def Key.PartsWithin (cover : Nat → Nat → ρ) (lo : Nat) (k : Key ρ) (hi : Nat) : Prop :=
  (∀ x ∈ k.path, x.Within cover lo hi) ∧ (∀ x ∈ k.edges, x.Within cover lo hi) ∧
    (∀ x ∈ k.edgeIndex, x.Within cover lo hi) ∧ (∀ x ∈ k.edgePath, x.Within cover lo hi) ∧
    (∀ x ∈ k.primary, x.Within cover lo hi) ∧ ∀ x ∈ k.value, x.Within cover lo hi

theorem Key.PartsWithin.mono {k : Key ρ} (h : k.PartsWithin cover lo hi) (hhi : hi ≤ hi') :
    k.PartsWithin cover lo hi' := by
  obtain ⟨hpath, hedges, hindex, hedgePath, hprimary, hvalue⟩ := h
  have hlo := Nat.le_refl lo
  exact ⟨fun x hx => (hpath x hx).mono hlo hhi, fun x hx => (hedges x hx).mono hlo hhi,
    fun x hx => Covers.mono (hindex x hx) hlo hhi, fun x hx => (hedgePath x hx).mono hlo hhi,
    fun x hx => (hprimary x hx).mono hlo hhi, fun x hx => (hvalue x hx).mono hlo hhi⟩

/-- Nothing has been read of an empty key. -/
theorem Key.PartsWithin.empty (range : ρ) : (Key.empty range).PartsWithin cover lo hi := by
  simp [Key.PartsWithin, Key.empty]

/-- A path is read behind the other parts of a key. -/
theorem Key.PartsWithin.behindPath {k : Key ρ} {path : Option (KeyPath ρ)} {mid : Nat}
    (h : k.PartsWithin cover lo hi) (hmid : lo ≤ mid) (hhi : hi ≤ hi')
    (hpath : ∀ x ∈ path, x.Within cover mid hi') :
    Key.PartsWithin cover lo { k with path } hi' := by
  obtain ⟨-, hedges, hindex, hedgePath, hprimary, hvalue⟩ := h.mono hhi
  exact ⟨fun x hx => (hpath x hx).mono hmid (Nat.le_refl hi'), hedges, hindex, hedgePath, hprimary,
    hvalue⟩

/-- The edges behind a path are read, with the path as the source of the first. -/
theorem Key.PartsWithin.behindEdges {k : Key ρ} {edges : List (Edge ρ)}
    (h : k.PartsWithin cover lo hi) (hhi : hi ≤ hi') (hedges : ∀ x ∈ edges, x.Within cover lo hi') :
    Key.PartsWithin cover lo { k with path := none, edges } hi' := by
  obtain ⟨-, -, hindex, hedgePath, hprimary, hvalue⟩ := h.mono hhi
  exact ⟨by simp, hedges, hindex, hedgePath, hprimary, hvalue⟩

/-- A key reaches over its parts. -/
theorem Key.PartsWithin.within {k : Key ρ} (h : k.PartsWithin cover lo hi) (hle : lo ≤ hi) :
    Key.Within cover { k with range := cover lo hi } lo hi := by
  obtain ⟨hpath, hedges, hindex, hedgePath, hprimary, hvalue⟩ := h
  refine ⟨lo, hi, Nat.le_refl lo, hle, Nat.le_refl hi, rfl, hpath, hedges, hindex, hedgePath,
    hprimary, ?_⟩
  cases hv : k.value with
  | none => trivial
  | some v => exact hvalue v hv

/-! ## Children in a row -/

theorem Text.allInOrder_iff (texts : List (Text ρ)) :
    Text.AllInOrder cover texts = InOrder (Text.Within cover) texts := by
  induction texts with
  | nil => rfl
  | cons t ts ih => funext lo hi; simp only [Text.AllInOrder, InOrder, ih]

theorem Piece.allInOrder_iff (pieces : List (Piece ρ)) :
    Piece.AllInOrder cover pieces = InOrder (Piece.Within cover) pieces := by
  induction pieces with
  | nil => rfl
  | cons p ps ih => funext lo hi; simp only [Piece.AllInOrder, InOrder, ih]

theorem Item.allInOrder_iff (items : List (Item ρ)) :
    Item.AllInOrder cover items = InOrder (Item.Within cover) items := by
  induction items with
  | nil => rfl
  | cons x xs ih => funext lo hi; simp only [Item.AllInOrder, InOrder, ih]

theorem Entry.allInOrder_iff (entries : List (Entry ρ)) :
    Entry.AllInOrder cover entries = InOrder (Entry.Within cover) entries := by
  induction entries with
  | nil => rfl
  | cons x xs ih => funext lo hi; simp only [Entry.AllInOrder, InOrder, ih]

theorem InOrder.mono {within : α → Nat → Nat → Prop} {xs : List α} (h : InOrder within xs lo hi)
    (hhi : hi ≤ hi') : InOrder within xs lo hi' := by
  induction xs generalizing lo with
  | nil => exact Nat.le_trans h hhi
  | cons x xs ih =>
    obtain ⟨k, hx, hxs⟩ := h
    exact ⟨k, hx, ih hxs⟩

/-- The same row with more room in front of it. -/
theorem InOrder.mono_lo {within : α → Nat → Nat → Prop} {xs : List α} (h : InOrder within xs lo hi)
    (hlo : lo' ≤ lo) (hwithin : ∀ x k, within x lo k → within x lo' k) :
    InOrder within xs lo' hi := by
  cases xs with
  | nil => exact Nat.le_trans hlo h
  | cons x xs =>
    obtain ⟨k, hx, hxs⟩ := h
    exact ⟨k, hwithin x k hx, hxs⟩

/-- One more element at the end, as the list is gathered latest first. -/
theorem InOrder.snoc {within : α → Nat → Nat → Prop} {gathered : List α} {x : α} {k : Nat}
    (h : InOrder within gathered.reverse lo k) (hx : ∀ m, m ≤ k → within x m hi) :
    InOrder within (x :: gathered).reverse lo hi := by
  rw [List.reverse_cons]
  generalize gathered.reverse = xs at h
  induction xs generalizing lo with
  | nil => exact ⟨hi, hx lo h, Nat.le_refl hi⟩
  | cons y ys ih =>
    obtain ⟨m, hy, hys⟩ := h
    exact ⟨m, hy, ih hys⟩

/-! ## Other marks -/

section

variable (f : ρ → σ)

theorem Covers.map {r : ρ} {inner inner' : Nat → Nat → Prop} (h : Covers cover r inner lo hi)
    (hin : ∀ i j, inner i j → inner' i j) :
    Covers (fun i j => f (cover i j)) (f r) inner' lo hi := by
  obtain ⟨i, j, hi, hij, hj, rfl, h⟩ := h
  exact ⟨i, j, hi, hij, hj, rfl, hin i j h⟩

theorem Comment.Within.mapMarks {c : Comment ρ} (h : c.Within cover lo hi) :
    (c.mapMarks f).Within (fun i j => f (cover i j)) lo hi :=
  Covers.map f h fun _ _ h => h

mutual

theorem Text.Within.mapMarks : (t : Text ρ) → ∀ {lo hi}, t.Within cover lo hi →
    (t.mapMarks f).Within (fun i j => f (cover i j)) lo hi
  | .unquoted _ pieces, _, _, h => Covers.map f h fun _ _ => Piece.Within.mapMarksAll pieces
  | .doubleQuoted _ pieces, _, _, h => Covers.map f h fun _ _ => Piece.Within.mapMarksAll pieces
  | .singleQuoted _ _, _, _, h => Covers.map f h fun _ _ h => h
  | .block _ _ _ _, _, _, h => Covers.map f h fun _ _ h => h

theorem Piece.Within.mapMarks : (p : Piece ρ) → ∀ {lo hi}, p.Within cover lo hi →
    (p.mapMarks f).Within (fun i j => f (cover i j)) lo hi
  | .literal _ _, _, _, h => h
  | .substitution s, _, _, h => Substitution.Within.mapMarks s h

theorem Substitution.Within.mapMarks : (s : Substitution ρ) → ∀ {lo hi}, s.Within cover lo hi →
    (s.mapMarks f).Within (fun i j => f (cover i j)) lo hi
  | ⟨_, _, path⟩, _, _, h => Covers.map f h fun _ _ => Text.Within.mapMarksAll path

theorem Piece.Within.mapMarksAll : (ps : List (Piece ρ)) → ∀ {lo hi},
    Piece.AllInOrder cover ps lo hi →
    Piece.AllInOrder (fun i j => f (cover i j)) (Piece.mapMarksAll f ps) lo hi
  | [], _, _, h => h
  | p :: ps, _, _, ⟨k, hp, hps⟩ =>
    ⟨k, Piece.Within.mapMarks p hp, Piece.Within.mapMarksAll ps hps⟩

theorem Text.Within.mapMarksAll : (ts : List (Text ρ)) → ∀ {lo hi},
    Text.AllInOrder cover ts lo hi →
    Text.AllInOrder (fun i j => f (cover i j)) (Text.mapMarksAll f ts) lo hi
  | [], _, _, h => h
  | t :: ts, _, _, ⟨k, ht, hts⟩ =>
    ⟨k, Text.Within.mapMarks t ht, Text.Within.mapMarksAll ts hts⟩

end

theorem KeyPath.Within.mapMarks {p : KeyPath ρ} (h : p.Within cover lo hi) :
    (p.mapMarks f).Within (fun i j => f (cover i j)) lo hi :=
  Covers.map f h fun _ _ => Text.Within.mapMarksAll f p.segments

/-- What holds of an optional part holds of the part with other marks. -/
theorem forall_mem_map {g : ρ → σ} {o : Option ρ} {P : ρ → Prop} {Q : σ → Prop}
    (h : ∀ x ∈ o, P x) (hPQ : ∀ x, P x → Q (g x)) : ∀ y ∈ o.map g, Q y := by
  intro y hy
  obtain ⟨x, hx, rfl⟩ := Option.map_eq_some_iff.mp hy
  exact hPQ x (h x hx)

theorem Edge.Within.mapMarks {e : Edge ρ} (h : e.Within cover lo hi) :
    (e.mapMarks f).Within (fun i j => f (cover i j)) lo hi :=
  Covers.map f h fun _ _ ⟨hs, ht⟩ =>
    ⟨forall_mem_map hs fun _ h => h.mapMarks f, forall_mem_map ht fun _ h => h.mapMarks f⟩

theorem EdgeIndex.Within.mapMarks {x : EdgeIndex ρ} (h : x.Within cover lo hi) :
    (x.mapMarks f).Within (fun i j => f (cover i j)) lo hi :=
  Covers.map f h fun _ _ h => h

theorem Scalar.Within.mapMarks {s : Scalar ρ} (h : s.Within cover lo hi) :
    (s.mapMarks f).Within (fun i j => f (cover i j)) lo hi := by
  cases s with
  | text t => exact Text.Within.mapMarks f t h
  | _ => exact Covers.map f h fun _ _ h => h

mutual

theorem Value.Within.mapMarks : (v : Value ρ) → ∀ {lo hi}, v.Within cover lo hi →
    (v.mapMarks f).Within (fun i j => f (cover i j)) lo hi
  | .scalar _, _, _, h => Scalar.Within.mapMarks f h
  | .sequence s, _, _, h => Sequence.Within.mapMarks s h
  | .map m, _, _, h => Map.Within.mapMarks m h

theorem Sequence.Within.mapMarks : (s : Sequence ρ) → ∀ {lo hi}, s.Within cover lo hi →
    (s.mapMarks f).Within (fun i j => f (cover i j)) lo hi
  | ⟨_, items⟩, _, _, h => Covers.map f h fun _ _ => Item.Within.mapMarksAll items

theorem Map.Within.mapMarks : (m : Map ρ) → ∀ {lo hi}, m.Within cover lo hi →
    (m.mapMarks f).Within (fun i j => f (cover i j)) lo hi
  | ⟨_, entries⟩, _, _, h => Covers.map f h fun _ _ => Entry.Within.mapMarksAll entries

theorem Item.Within.mapMarks : (x : Item ρ) → ∀ {lo hi}, x.Within cover lo hi →
    (x.mapMarks f).Within (fun i j => f (cover i j)) lo hi
  | .comment _, _, _, h => Comment.Within.mapMarks f h
  | .blockComment _, _, _, h => Comment.Within.mapMarks f h
  | .substitution s, _, _, h => Substitution.Within.mapMarks f s h
  | .value v, _, _, h => Value.Within.mapMarks v h

theorem Entry.Within.mapMarks : (x : Entry ρ) → ∀ {lo hi}, x.Within cover lo hi →
    (x.mapMarks f).Within (fun i j => f (cover i j)) lo hi
  | .comment _, _, _, h => Comment.Within.mapMarks f h
  | .blockComment _, _, _, h => Comment.Within.mapMarks f h
  | .substitution s, _, _, h => Substitution.Within.mapMarks f s h
  | .key k, _, _, h => Key.Within.mapMarks k h

theorem Key.Within.mapMarks : (k : Key ρ) → ∀ {lo hi}, k.Within cover lo hi →
    (k.mapMarks f).Within (fun i j => f (cover i j)) lo hi
  | ⟨_, _, _, _, _, _, _, value⟩, _, _, h =>
    Covers.map f h fun _ _ ⟨hpath, hedges, hindex, hedgePath, hprimary, hvalue⟩ =>
      ⟨forall_mem_map hpath fun _ h => h.mapMarks f,
        List.forall_mem_map.mpr fun e he => (hedges e he).mapMarks f,
        forall_mem_map hindex fun _ h => h.mapMarks f,
        forall_mem_map hedgePath fun _ h => h.mapMarks f,
        forall_mem_map hprimary fun _ h => h.mapMarks f, Value.Within.mapMarks? value hvalue⟩

theorem Value.Within.mapMarks? : (v : Option (Value ρ)) → ∀ {lo hi},
    Value.Within? cover v lo hi →
    Value.Within? (fun i j => f (cover i j)) (Value.mapMarks? f v) lo hi
  | none, _, _, h => h
  | some v, _, _, h => Value.Within.mapMarks v h

theorem Item.Within.mapMarksAll : (xs : List (Item ρ)) → ∀ {lo hi},
    Item.AllInOrder cover xs lo hi →
    Item.AllInOrder (fun i j => f (cover i j)) (Item.mapMarksAll f xs) lo hi
  | [], _, _, h => h
  | x :: xs, _, _, ⟨k, hx, hxs⟩ =>
    ⟨k, Item.Within.mapMarks x hx, Item.Within.mapMarksAll xs hxs⟩

theorem Entry.Within.mapMarksAll : (xs : List (Entry ρ)) → ∀ {lo hi},
    Entry.AllInOrder cover xs lo hi →
    Entry.AllInOrder (fun i j => f (cover i j)) (Entry.mapMarksAll f xs) lo hi
  | [], _, _, h => h
  | x :: xs, _, _, ⟨k, hx, hxs⟩ =>
    ⟨k, Entry.Within.mapMarks x hx, Entry.Within.mapMarksAll xs hxs⟩

end

end

end Diagram
