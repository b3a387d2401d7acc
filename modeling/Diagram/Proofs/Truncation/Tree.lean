import Diagram.Proofs.Depth.Levels
import Diagram.Proofs.Within

/-!
Trees with their containers emptied below a level. The containers that are emptied are those one
level below, and nothing else changes.
-/
namespace Diagram

variable {ρ σ : Type}

/-! ## Emptied containers -/

mutual

/-- The value on the given level, in which the maps and sequences that lie deeper than `limit` are
empty. -/
def Value.truncate (limit level : Nat) : Value ρ → Value ρ
  | .scalar s => .scalar s
  | .sequence s => .sequence (s.truncate limit level)
  | .map m => .map (m.truncate limit level)

def Sequence.truncate (limit level : Nat) : Sequence ρ → Sequence ρ
  | ⟨range, items⟩ =>
    ⟨range, if limit < level then [] else Item.truncateAll limit (level + 1) items⟩

def Map.truncate (limit level : Nat) : Map ρ → Map ρ
  | ⟨range, entries⟩ =>
    ⟨range, if limit < level then [] else Entry.truncateAll limit (level + 1) entries⟩

def Item.truncate (limit level : Nat) : Item ρ → Item ρ
  | .comment c => .comment c
  | .blockComment c => .blockComment c
  | .substitution s => .substitution s
  | .value v => .value (v.truncate limit level)

def Entry.truncate (limit level : Nat) : Entry ρ → Entry ρ
  | .comment c => .comment c
  | .blockComment c => .blockComment c
  | .substitution s => .substitution s
  | .key k => .key (k.truncate limit level)

def Key.truncate (limit level : Nat) : Key ρ → Key ρ
  | ⟨range, ampersand, path, edges, edgeIndex, edgePath, primary, value⟩ =>
    ⟨range, ampersand, path, edges, edgeIndex, edgePath, primary,
      Value.truncate? limit level value⟩

def Value.truncate? (limit level : Nat) : Option (Value ρ) → Option (Value ρ)
  | none => none
  | some v => some (v.truncate limit level)

def Item.truncateAll (limit level : Nat) : List (Item ρ) → List (Item ρ)
  | [] => []
  | x :: xs => x.truncate limit level :: Item.truncateAll limit level xs

def Entry.truncateAll (limit level : Nat) : List (Entry ρ) → List (Entry ρ)
  | [] => []
  | x :: xs => x.truncate limit level :: Entry.truncateAll limit level xs

end

theorem Item.truncateAll_eq (limit level : Nat) (xs : List (Item ρ)) :
    Item.truncateAll limit level xs = xs.map (Item.truncate limit level) := by
  induction xs with
  | nil => rfl
  | cons x xs ih => rw [Item.truncateAll, ih, List.map_cons]

theorem Entry.truncateAll_eq (limit level : Nat) (xs : List (Entry ρ)) :
    Entry.truncateAll limit level xs = xs.map (Entry.truncate limit level) := by
  induction xs with
  | nil => rfl
  | cons x xs ih => rw [Entry.truncateAll, ih, List.map_cons]

theorem Key.truncate_eq (limit level : Nat) (k : Key ρ) :
    k.truncate limit level = { k with value := k.value.map (Value.truncate limit level) } := by
  obtain ⟨range, ampersand, path, edges, edgeIndex, edgePath, primary, value⟩ := k
  cases value <;> rfl

/-! ## Other marks -/

section

variable (f : ρ → σ)

mutual

theorem Value.truncate_mapMarks (limit level : Nat) : (v : Value ρ) →
    (v.mapMarks f).truncate limit level = (v.truncate limit level).mapMarks f
  | .scalar _ => rfl
  | .sequence s => congrArg Value.sequence (Sequence.truncate_mapMarks limit level s)
  | .map m => congrArg Value.map (Map.truncate_mapMarks limit level m)

theorem Sequence.truncate_mapMarks (limit level : Nat) : (s : Sequence ρ) →
    (s.mapMarks f).truncate limit level = (s.truncate limit level).mapMarks f
  | ⟨range, items⟩ => by
    simp only [Sequence.mapMarks, Sequence.truncate,
      Item.truncateAll_mapMarksAll limit (level + 1) items]
    split <;> rfl

/-- Changing the marks of a tree does not change which containers are emptied. -/
theorem Map.truncate_mapMarks (limit level : Nat) : (m : Map ρ) →
    (m.mapMarks f).truncate limit level = (m.truncate limit level).mapMarks f
  | ⟨range, entries⟩ => by
    simp only [Map.mapMarks, Map.truncate, Entry.truncateAll_mapMarksAll limit (level + 1) entries]
    split <;> rfl

theorem Item.truncate_mapMarks (limit level : Nat) : (x : Item ρ) →
    (x.mapMarks f).truncate limit level = (x.truncate limit level).mapMarks f
  | .comment _ | .blockComment _ | .substitution _ => rfl
  | .value v => congrArg Item.value (Value.truncate_mapMarks limit level v)

theorem Entry.truncate_mapMarks (limit level : Nat) : (x : Entry ρ) →
    (x.mapMarks f).truncate limit level = (x.truncate limit level).mapMarks f
  | .comment _ | .blockComment _ | .substitution _ => rfl
  | .key k => congrArg Entry.key (Key.truncate_mapMarks limit level k)

theorem Key.truncate_mapMarks (limit level : Nat) : (k : Key ρ) →
    (k.mapMarks f).truncate limit level = (k.truncate limit level).mapMarks f
  | ⟨_, _, _, _, _, _, _, value⟩ => by
    simp only [Key.mapMarks, Key.truncate, Value.truncate?_mapMarks? limit level value]

theorem Value.truncate?_mapMarks? (limit level : Nat) : (v : Option (Value ρ)) →
    Value.truncate? limit level (Value.mapMarks? f v) =
      Value.mapMarks? f (Value.truncate? limit level v)
  | none => rfl
  | some v => congrArg some (Value.truncate_mapMarks limit level v)

theorem Item.truncateAll_mapMarksAll (limit level : Nat) : (xs : List (Item ρ)) →
    Item.truncateAll limit level (Item.mapMarksAll f xs) =
      Item.mapMarksAll f (Item.truncateAll limit level xs)
  | [] => rfl
  | x :: xs => by
    simp only [Item.mapMarksAll, Item.truncateAll, Item.truncate_mapMarks limit level x,
      Item.truncateAll_mapMarksAll limit level xs]

theorem Entry.truncateAll_mapMarksAll (limit level : Nat) : (xs : List (Entry ρ)) →
    Entry.truncateAll limit level (Entry.mapMarksAll f xs) =
      Entry.mapMarksAll f (Entry.truncateAll limit level xs)
  | [] => rfl
  | x :: xs => by
    simp only [Entry.mapMarksAll, Entry.truncateAll, Entry.truncate_mapMarks limit level x,
      Entry.truncateAll_mapMarksAll limit level xs]

end

end

/-! ## Levels -/

mutual

/-- No container of a value lies above it. -/
theorem Value.le_level (level : Nat) : (v : Value ρ) → ∀ c ∈ v.containers level, level ≤ c.level
  | .scalar _ => by simp [Value.containers]
  | .sequence s => Sequence.le_level level s
  | .map m => Map.le_level level m

theorem Sequence.le_level (level : Nat) :
    (s : Sequence ρ) → ∀ c ∈ s.containers level, level ≤ c.level
  | ⟨range, items⟩ => by
    rw [Sequence.containers, List.forall_mem_cons]
    exact ⟨Nat.le_refl _, fun c hc => Nat.le_of_succ_le (Item.le_level_all (level + 1) items c hc)⟩

theorem Map.le_level (level : Nat) : (m : Map ρ) → ∀ c ∈ m.containers level, level ≤ c.level
  | ⟨range, entries⟩ => by
    rw [Map.containers, List.forall_mem_cons]
    exact ⟨Nat.le_refl _,
      fun c hc => Nat.le_of_succ_le (Entry.le_level_all (level + 1) entries c hc)⟩

theorem Item.le_level (level : Nat) : (x : Item ρ) → ∀ c ∈ x.containers level, level ≤ c.level
  | .comment _ | .blockComment _ | .substitution _ => by simp [Item.containers]
  | .value v => Value.le_level level v

theorem Entry.le_level (level : Nat) : (x : Entry ρ) → ∀ c ∈ x.containers level, level ≤ c.level
  | .comment _ | .blockComment _ | .substitution _ => by simp [Entry.containers]
  | .key k => Key.le_level level k

theorem Key.le_level (level : Nat) : (k : Key ρ) → ∀ c ∈ k.containers level, level ≤ c.level
  | ⟨_, _, _, _, _, _, _, none⟩ => by simp [Key.containers, Value.containers?]
  | ⟨_, _, _, _, _, _, _, some v⟩ => Value.le_level level v

theorem Item.le_level_all (level : Nat) :
    (xs : List (Item ρ)) → ∀ c ∈ Item.containersAll level xs, level ≤ c.level
  | [] => by simp [Item.containersAll]
  | x :: xs => by
    rw [Item.containersAll, List.forall_mem_append]
    exact ⟨Item.le_level level x, Item.le_level_all level xs⟩

theorem Entry.le_level_all (level : Nat) :
    (xs : List (Entry ρ)) → ∀ c ∈ Entry.containersAll level xs, level ≤ c.level
  | [] => by simp [Entry.containersAll]
  | x :: xs => by
    rw [Entry.containersAll, List.forall_mem_append]
    exact ⟨Entry.le_level level x, Entry.le_level_all level xs⟩

end

/-- The containers on one level. -/
def onLevel (level : Nat) (containers : List (Container ρ)) : List (Container ρ) :=
  containers.filter (·.level = level)

theorem onLevel_eq_nil {level : Nat} {containers : List (Container ρ)}
    (h : ∀ c ∈ containers, level < c.level) : onLevel level containers = [] := by
  rw [onLevel, List.filter_eq_nil_iff]
  intro c hc
  have hlt := h c hc
  simp only [decide_eq_true_eq]
  omega

theorem onLevel_cons_of_eq {level : Nat} {c : Container ρ} (h : c.level = level)
    (containers : List (Container ρ)) :
    onLevel level (c :: containers) = c :: onLevel level containers := by
  simp [onLevel, h]

theorem onLevel_cons_of_ne {level : Nat} {c : Container ρ} (h : c.level ≠ level)
    (containers : List (Container ρ)) :
    onLevel level (c :: containers) = onLevel level containers := by
  simp [onLevel, h]

theorem onLevel_append (level : Nat) (cs ds : List (Container ρ)) :
    onLevel level (cs ++ ds) = onLevel level cs ++ onLevel level ds :=
  List.filter_append cs ds

theorem onLevel_mapMark (f : ρ → σ) (level : Nat) (containers : List (Container ρ)) :
    onLevel level (containers.map (Container.mapMark f)) =
      (onLevel level containers).map (Container.mapMark f) := by
  rw [onLevel, onLevel, List.filter_map]
  rfl

/-! ## One level in order -/

section

variable {cover : Nat → Nat → ρ} {level lo hi : Nat}

/-- The container is marked with a stretch between `lo` and `hi`. -/
def Container.Within (cover : Nat → Nat → ρ) (c : Container ρ) : Nat → Nat → Prop :=
  Covers cover c.range fun _ _ => True

/-- Containers that follow each other between `lo` and `hi`. -/
abbrev Row (cover : Nat → Nat → ρ) : List (Container ρ) → Nat → Nat → Prop :=
  InOrder (Container.Within cover)

namespace Row

variable {cs ds : List (Container ρ)}

theorem le (h : Row cover cs lo hi) : lo ≤ hi := by
  induction cs generalizing lo with
  | nil => exact h
  | cons c cs ih =>
    obtain ⟨k, hc, hcs⟩ := h
    exact Nat.le_trans (Covers.le hc) (ih hcs)

theorem widen {lo' hi' : Nat} (h : Row cover cs lo hi) (hlo : lo' ≤ lo) (hhi : hi ≤ hi') :
    Row cover cs lo' hi' :=
  (InOrder.mono h hhi).mono_lo hlo fun _ _ hc => Covers.mono hc hlo (Nat.le_refl _)

theorem append {k : Nat} (h : Row cover cs lo k) (h' : Row cover ds k hi) :
    Row cover (cs ++ ds) lo hi := by
  induction cs generalizing lo with
  | nil => exact h'.widen h (Nat.le_refl hi)
  | cons c cs ih =>
    obtain ⟨m, hc, hcs⟩ := h
    exact ⟨m, hc, ih hcs⟩

theorem within_of_mem (h : Row cover cs lo hi) : ∀ c ∈ cs, c.Within cover lo hi := by
  induction cs generalizing lo with
  | nil => exact nofun
  | cons c cs ih =>
    obtain ⟨k, hc, hcs⟩ := h
    refine List.forall_mem_cons.mpr ⟨Covers.mono hc (Nat.le_refl lo) (le hcs), fun d hd => ?_⟩
    exact Covers.mono (ih hcs d hd) (Covers.le hc) (Nat.le_refl hi)

/-- Each container of a row ends where the later ones have not yet begun. -/
theorem pairwise {R : ρ → ρ → Prop} (h : Row cover cs lo hi)
    (hR : ∀ {i j k l}, j ≤ k → R (cover i j) (cover k l)) :
    cs.Pairwise fun c d => R c.range d.range := by
  induction cs generalizing lo with
  | nil => exact .nil
  | cons c cs ih =>
    obtain ⟨k, ⟨i, j, -, -, hj, hc, -⟩, hcs⟩ := h
    refine .cons (fun d hd => ?_) (ih hcs)
    obtain ⟨i', j', hi', -, -, hd', -⟩ := within_of_mem hcs d hd
    rw [hc, hd']
    exact hR (Nat.le_trans hj hi')

/-- A container holds those of its level and all that is deeper. -/
theorem cons {c : Container ρ} {n : Nat}
    (hrow : Covers cover c.range (Row cover (onLevel n cs)) lo hi)
    (hdeeper : ∀ d ∈ cs, c.level < d.level) : Row cover (onLevel n (c :: cs)) lo hi := by
  obtain ⟨i, j, hlo, hij, hhi, hrange, hcs⟩ := hrow
  by_cases hlevel : c.level = n
  · rw [onLevel_cons_of_eq hlevel, onLevel_eq_nil (hlevel ▸ hdeeper)]
    exact ⟨hi, ⟨i, j, hlo, hij, hhi, hrange, trivial⟩, Nat.le_refl hi⟩
  · rw [onLevel_cons_of_ne hlevel]
    exact widen hcs hlo hhi

end Row

end

mutual

/-- The containers on one level of a value follow each other. -/
theorem Value.row {cover : Nat → Nat → ρ} (n level : Nat) : (v : Value ρ) → ∀ {lo hi},
    v.Within cover lo hi → Row cover (onLevel n (v.containers level)) lo hi
  | .scalar _, _, _, h => Scalar.Within.le h
  | .sequence s, _, _, h => Sequence.row n level s h
  | .map m, _, _, h => Map.row n level m h

theorem Sequence.row {cover : Nat → Nat → ρ} (n level : Nat) : (s : Sequence ρ) → ∀ {lo hi},
    s.Within cover lo hi → Row cover (onLevel n (s.containers level)) lo hi
  | ⟨_, items⟩, _, _, ⟨i, j, hlo, hij, hhi, hrange, h⟩ =>
    .cons ⟨i, j, hlo, hij, hhi, hrange, Item.row_all n (level + 1) items h⟩
      (Item.le_level_all (level + 1) items)

theorem Map.row {cover : Nat → Nat → ρ} (n level : Nat) : (m : Map ρ) → ∀ {lo hi},
    m.Within cover lo hi → Row cover (onLevel n (m.containers level)) lo hi
  | ⟨_, entries⟩, _, _, ⟨i, j, hlo, hij, hhi, hrange, h⟩ =>
    .cons ⟨i, j, hlo, hij, hhi, hrange, Entry.row_all n (level + 1) entries h⟩
      (Entry.le_level_all (level + 1) entries)

theorem Item.row {cover : Nat → Nat → ρ} (n level : Nat) : (x : Item ρ) → ∀ {lo hi},
    x.Within cover lo hi → Row cover (onLevel n (x.containers level)) lo hi
  | .comment _, _, _, h => Covers.le h
  | .blockComment _, _, _, h => Covers.le h
  | .substitution _, _, _, h => Substitution.Within.le h
  | .value v, _, _, h => Value.row n level v h

theorem Entry.row {cover : Nat → Nat → ρ} (n level : Nat) : (x : Entry ρ) → ∀ {lo hi},
    x.Within cover lo hi → Row cover (onLevel n (x.containers level)) lo hi
  | .comment _, _, _, h => Covers.le h
  | .blockComment _, _, _, h => Covers.le h
  | .substitution _, _, _, h => Substitution.Within.le h
  | .key k, _, _, h => Key.row n level k h

theorem Key.row {cover : Nat → Nat → ρ} (n level : Nat) : (k : Key ρ) → ∀ {lo hi},
    k.Within cover lo hi → Row cover (onLevel n (k.containers level)) lo hi
  | ⟨_, _, _, _, _, _, _, none⟩, _, _, h => Covers.le h
  | ⟨_, _, _, _, _, _, _, some v⟩, _, _, ⟨_, _, hlo, _, hhi, _, _, _, _, _, _, h⟩ =>
    (Value.row n level v h).widen hlo hhi

theorem Item.row_all {cover : Nat → Nat → ρ} (n level : Nat) : (xs : List (Item ρ)) → ∀ {lo hi},
    Item.AllInOrder cover xs lo hi → Row cover (onLevel n (Item.containersAll level xs)) lo hi
  | [], _, _, h => h
  | x :: xs, _, _, ⟨_, hx, hxs⟩ => by
    rw [Item.containersAll, onLevel_append]
    exact (Item.row n level x hx).append (Item.row_all n level xs hxs)

theorem Entry.row_all {cover : Nat → Nat → ρ} (n level : Nat) : (xs : List (Entry ρ)) → ∀ {lo hi},
    Entry.AllInOrder cover xs lo hi → Row cover (onLevel n (Entry.containersAll level xs)) lo hi
  | [], _, _, h => h
  | x :: xs, _, _, ⟨_, hx, hxs⟩ => by
    rw [Entry.containersAll, onLevel_append]
    exact (Entry.row n level x hx).append (Entry.row_all n level xs hxs)

end

end Diagram
