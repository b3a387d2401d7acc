import Diagram.Tree.Mark

/-!
The maps and sequences of a tree, in the order they are written, each with its level: the number of
maps and sequences around it.
-/
namespace Diagram

variable {ρ σ : Type}

/-- A map or a sequence in a tree: its level, its mark and the number of its children. -/
structure Container (ρ : Type) where
  level : Nat
  range : ρ
  size : Nat
  deriving DecidableEq, Repr

/-- The same container with another mark. -/
def Container.mapMark (f : ρ → σ) (c : Container ρ) : Container σ :=
  ⟨c.level, f c.range, c.size⟩

/-! ## The containers of a tree -/

mutual

/-- The containers of a value that stands on the given level. -/
def Value.containers (level : Nat) : Value ρ → List (Container ρ)
  | .scalar _ => []
  | .sequence s => s.containers level
  | .map m => m.containers level

def Sequence.containers (level : Nat) : Sequence ρ → List (Container ρ)
  | ⟨range, items⟩ => ⟨level, range, items.length⟩ :: Item.containersAll (level + 1) items

def Map.containers (level : Nat) : Map ρ → List (Container ρ)
  | ⟨range, entries⟩ => ⟨level, range, entries.length⟩ :: Entry.containersAll (level + 1) entries

def Item.containers (level : Nat) : Item ρ → List (Container ρ)
  | .comment _ | .blockComment _ | .substitution _ => []
  | .value v => v.containers level

def Entry.containers (level : Nat) : Entry ρ → List (Container ρ)
  | .comment _ | .blockComment _ | .substitution _ => []
  | .key k => k.containers level

def Key.containers (level : Nat) : Key ρ → List (Container ρ)
  | ⟨_, _, _, _, _, _, _, value⟩ => Value.containers? level value

def Value.containers? (level : Nat) : Option (Value ρ) → List (Container ρ)
  | none => []
  | some v => v.containers level

def Item.containersAll (level : Nat) : List (Item ρ) → List (Container ρ)
  | [] => []
  | x :: xs => x.containers level ++ Item.containersAll level xs

def Entry.containersAll (level : Nat) : List (Entry ρ) → List (Container ρ)
  | [] => []
  | x :: xs => x.containers level ++ Entry.containersAll level xs

end

theorem Key.containers_eq (level : Nat) (k : Key ρ) :
    k.containers level = Value.containers? level k.value := by
  cases k
  rfl

theorem Item.containersAll_eq (level : Nat) (xs : List (Item ρ)) :
    Item.containersAll level xs = xs.flatMap (Item.containers level) := by
  induction xs with
  | nil => rfl
  | cons x xs ih => rw [Item.containersAll, ih, List.flatMap_cons]

theorem Entry.containersAll_eq (level : Nat) (xs : List (Entry ρ)) :
    Entry.containersAll level xs = xs.flatMap (Entry.containers level) := by
  induction xs with
  | nil => rfl
  | cons x xs ih => rw [Entry.containersAll, ih, List.flatMap_cons]

theorem Item.containersAll_append (level : Nat) (xs ys : List (Item ρ)) :
    Item.containersAll level (xs ++ ys) =
      Item.containersAll level xs ++ Item.containersAll level ys := by
  simp only [Item.containersAll_eq, List.flatMap_append]

theorem Entry.containersAll_append (level : Nat) (xs ys : List (Entry ρ)) :
    Entry.containersAll level (xs ++ ys) =
      Entry.containersAll level xs ++ Entry.containersAll level ys := by
  simp only [Entry.containersAll_eq, List.flatMap_append]

/-! ## Other marks -/

section

variable (f : ρ → σ)

mutual

theorem Value.containers_mapMarks (level : Nat) : (v : Value ρ) →
    (v.mapMarks f).containers level = (v.containers level).map (Container.mapMark f)
  | .scalar _ => rfl
  | .sequence s => Sequence.containers_mapMarks level s
  | .map m => Map.containers_mapMarks level m

theorem Sequence.containers_mapMarks (level : Nat) : (s : Sequence ρ) →
    (s.mapMarks f).containers level = (s.containers level).map (Container.mapMark f)
  | ⟨range, items⟩ => by
    have hsize : (Item.mapMarksAll f items).length = items.length := by
      rw [Item.mapMarksAll_eq, List.length_map]
    simp only [Sequence.mapMarks, Sequence.containers, List.map_cons, Container.mapMark, hsize,
      Item.containersAll_mapMarksAll (level + 1) items]

/-- Changing the marks of a tree leaves its containers where they are. -/
theorem Map.containers_mapMarks (level : Nat) : (m : Map ρ) →
    (m.mapMarks f).containers level = (m.containers level).map (Container.mapMark f)
  | ⟨range, entries⟩ => by
    have hsize : (Entry.mapMarksAll f entries).length = entries.length := by
      rw [Entry.mapMarksAll_eq, List.length_map]
    simp only [Map.mapMarks, Map.containers, List.map_cons, Container.mapMark, hsize,
      Entry.containersAll_mapMarksAll (level + 1) entries]

theorem Item.containers_mapMarks (level : Nat) : (x : Item ρ) →
    (x.mapMarks f).containers level = (x.containers level).map (Container.mapMark f)
  | .comment _ | .blockComment _ | .substitution _ => rfl
  | .value v => Value.containers_mapMarks level v

theorem Entry.containers_mapMarks (level : Nat) : (x : Entry ρ) →
    (x.mapMarks f).containers level = (x.containers level).map (Container.mapMark f)
  | .comment _ | .blockComment _ | .substitution _ => rfl
  | .key k => Key.containers_mapMarks level k

theorem Key.containers_mapMarks (level : Nat) : (k : Key ρ) →
    (k.mapMarks f).containers level = (k.containers level).map (Container.mapMark f)
  | ⟨_, _, _, _, _, _, _, value⟩ => Value.containers?_mapMarks? level value

theorem Value.containers?_mapMarks? (level : Nat) : (v : Option (Value ρ)) →
    Value.containers? level (Value.mapMarks? f v) =
      (Value.containers? level v).map (Container.mapMark f)
  | none => rfl
  | some v => Value.containers_mapMarks level v

theorem Item.containersAll_mapMarksAll (level : Nat) : (xs : List (Item ρ)) →
    Item.containersAll level (Item.mapMarksAll f xs) =
      (Item.containersAll level xs).map (Container.mapMark f)
  | [] => rfl
  | x :: xs => by
    rw [Item.mapMarksAll, Item.containersAll, Item.containersAll, List.map_append,
      Item.containers_mapMarks level x, Item.containersAll_mapMarksAll level xs]

theorem Entry.containersAll_mapMarksAll (level : Nat) : (xs : List (Entry ρ)) →
    Entry.containersAll level (Entry.mapMarksAll f xs) =
      (Entry.containersAll level xs).map (Container.mapMark f)
  | [] => rfl
  | x :: xs => by
    rw [Entry.mapMarksAll, Entry.containersAll, Entry.containersAll, List.map_append,
      Entry.containers_mapMarks level x, Entry.containersAll_mapMarksAll level xs]

end

end

end Diagram
