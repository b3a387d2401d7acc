import Diagram.Tree.Basic

/-!
Equality of trees is decidable when equality of their marks is. The comparisons `same` go through
two trees side by side; the lemmas `same_iff` say that they find exactly the equal ones.
-/
namespace Diagram

variable {ρ : Type} [DecidableEq ρ]

mutual

def Text.same : Text ρ → Text ρ → Bool
  | .unquoted r ps, .unquoted r' ps' => r = r' && Piece.sameAll ps ps'
  | .doubleQuoted r ps, .doubleQuoted r' ps' => r = r' && Piece.sameAll ps ps'
  | .singleQuoted r t, .singleQuoted r' t' => r = r' && t = t'
  | .block r q g t, .block r' q' g' t' => r = r' && q = q' && g = g' && t = t'
  | _, _ => false
termination_by structural a => a

def Piece.same : Piece ρ → Piece ρ → Bool
  | .literal v w, .literal v' w' => v = v' && w = w'
  | .substitution s, .substitution s' => s.same s'
  | _, _ => false
termination_by structural a => a

def Substitution.same : Substitution ρ → Substitution ρ → Bool
  | ⟨r, s, p⟩, ⟨r', s', p'⟩ => r = r' && s = s' && Text.sameAll p p'
termination_by structural a => a

def Piece.sameAll : List (Piece ρ) → List (Piece ρ) → Bool
  | [], [] => true
  | a :: as, b :: bs => a.same b && Piece.sameAll as bs
  | _, _ => false
termination_by structural a => a

def Text.sameAll : List (Text ρ) → List (Text ρ) → Bool
  | [], [] => true
  | a :: as, b :: bs => a.same b && Text.sameAll as bs
  | _, _ => false
termination_by structural a => a

end

mutual

theorem Text.same_iff : ∀ a b : Text ρ, a.same b = true ↔ a = b
  | .unquoted r ps, .unquoted r' ps' => by simp [Text.same, Piece.sameAll_iff ps ps']
  | .doubleQuoted r ps, .doubleQuoted r' ps' => by simp [Text.same, Piece.sameAll_iff ps ps']
  | .singleQuoted .., .singleQuoted .. => by simp [Text.same]
  | .block .., .block .. => by simp [Text.same, and_assoc]
  | .unquoted .., .doubleQuoted .. | .unquoted .., .singleQuoted .. | .unquoted .., .block ..
  | .doubleQuoted .., .unquoted .. | .doubleQuoted .., .singleQuoted ..
  | .doubleQuoted .., .block .. | .singleQuoted .., .unquoted ..
  | .singleQuoted .., .doubleQuoted .. | .singleQuoted .., .block .. | .block .., .unquoted ..
  | .block .., .doubleQuoted .. | .block .., .singleQuoted .. => by simp [Text.same]
termination_by structural a => a

theorem Piece.same_iff : ∀ a b : Piece ρ, a.same b = true ↔ a = b
  | .literal .., .literal .. => by simp [Piece.same]
  | .substitution s, .substitution s' => by simp [Piece.same, Substitution.same_iff s s']
  | .literal .., .substitution _ | .substitution _, .literal .. => by simp [Piece.same]
termination_by structural a => a

theorem Substitution.same_iff : ∀ a b : Substitution ρ, a.same b = true ↔ a = b
  | ⟨r, s, p⟩, ⟨r', s', p'⟩ => by simp [Substitution.same, Text.sameAll_iff p p', and_assoc]
termination_by structural a => a

theorem Piece.sameAll_iff : ∀ as bs : List (Piece ρ), Piece.sameAll as bs = true ↔ as = bs
  | [], [] | [], _ :: _ | _ :: _, [] => by simp [Piece.sameAll]
  | a :: as, b :: bs => by simp [Piece.sameAll, Piece.same_iff a b, Piece.sameAll_iff as bs]
termination_by structural a => a

theorem Text.sameAll_iff : ∀ as bs : List (Text ρ), Text.sameAll as bs = true ↔ as = bs
  | [], [] | [], _ :: _ | _ :: _, [] => by simp [Text.sameAll]
  | a :: as, b :: bs => by simp [Text.sameAll, Text.same_iff a b, Text.sameAll_iff as bs]
termination_by structural a => a

end

instance : DecidableEq (Text ρ) := fun a b => decidable_of_iff _ (Text.same_iff a b)
instance : DecidableEq (Piece ρ) := fun a b => decidable_of_iff _ (Piece.same_iff a b)
instance : DecidableEq (Substitution ρ) := fun a b => decidable_of_iff _ (Substitution.same_iff a b)

deriving instance DecidableEq for KeyPath
deriving instance DecidableEq for Edge
deriving instance DecidableEq for Scalar

mutual

def Value.same : Value ρ → Value ρ → Bool
  | .scalar s, .scalar s' => s = s'
  | .sequence s, .sequence s' => s.same s'
  | .map m, .map m' => m.same m'
  | _, _ => false
termination_by structural a => a

def Sequence.same : Sequence ρ → Sequence ρ → Bool
  | ⟨r, items⟩, ⟨r', items'⟩ => r = r' && Item.sameAll items items'
termination_by structural a => a

def Map.same : Map ρ → Map ρ → Bool
  | ⟨r, entries⟩, ⟨r', entries'⟩ => r = r' && Entry.sameAll entries entries'
termination_by structural a => a

def Item.same : Item ρ → Item ρ → Bool
  | .comment c, .comment c' => c = c'
  | .blockComment c, .blockComment c' => c = c'
  | .substitution s, .substitution s' => s = s'
  | .value v, .value v' => v.same v'
  | _, _ => false
termination_by structural a => a

def Entry.same : Entry ρ → Entry ρ → Bool
  | .comment c, .comment c' => c = c'
  | .blockComment c, .blockComment c' => c = c'
  | .substitution s, .substitution s' => s = s'
  | .key k, .key k' => k.same k'
  | _, _ => false
termination_by structural a => a

def Key.same : Key ρ → Key ρ → Bool
  | ⟨r, a, p, e, i, g, s, v⟩, ⟨r', a', p', e', i', g', s', v'⟩ =>
    r = r' && a = a' && p = p' && e = e' && i = i' && g = g' && s = s' && Value.same? v v'
termination_by structural a => a

def Value.same? : Option (Value ρ) → Option (Value ρ) → Bool
  | none, none => true
  | some v, some v' => v.same v'
  | _, _ => false
termination_by structural a => a

def Item.sameAll : List (Item ρ) → List (Item ρ) → Bool
  | [], [] => true
  | a :: as, b :: bs => a.same b && Item.sameAll as bs
  | _, _ => false
termination_by structural a => a

def Entry.sameAll : List (Entry ρ) → List (Entry ρ) → Bool
  | [], [] => true
  | a :: as, b :: bs => a.same b && Entry.sameAll as bs
  | _, _ => false
termination_by structural a => a

end

mutual

theorem Value.same_iff : ∀ a b : Value ρ, a.same b = true ↔ a = b
  | .scalar _, .scalar _ => by simp [Value.same]
  | .sequence s, .sequence s' => by simp [Value.same, Sequence.same_iff s s']
  | .map m, .map m' => by simp [Value.same, Map.same_iff m m']
  | .scalar _, .sequence _ | .scalar _, .map _ | .sequence _, .scalar _ | .sequence _, .map _
  | .map _, .scalar _ | .map _, .sequence _ => by simp [Value.same]
termination_by structural a => a

theorem Sequence.same_iff : ∀ a b : Sequence ρ, a.same b = true ↔ a = b
  | ⟨r, items⟩, ⟨r', items'⟩ => by simp [Sequence.same, Item.sameAll_iff items items']
termination_by structural a => a

theorem Map.same_iff : ∀ a b : Map ρ, a.same b = true ↔ a = b
  | ⟨r, entries⟩, ⟨r', entries'⟩ => by simp [Map.same, Entry.sameAll_iff entries entries']
termination_by structural a => a

theorem Item.same_iff : ∀ a b : Item ρ, a.same b = true ↔ a = b
  | .comment _, .comment _ | .blockComment _, .blockComment _
  | .substitution _, .substitution _ => by simp [Item.same]
  | .value v, .value v' => by simp [Item.same, Value.same_iff v v']
  | .comment _, .blockComment _ | .comment _, .substitution _ | .comment _, .value _
  | .blockComment _, .comment _ | .blockComment _, .substitution _ | .blockComment _, .value _
  | .substitution _, .comment _ | .substitution _, .blockComment _ | .substitution _, .value _
  | .value _, .comment _ | .value _, .blockComment _ | .value _, .substitution _ => by
    simp [Item.same]
termination_by structural a => a

theorem Entry.same_iff : ∀ a b : Entry ρ, a.same b = true ↔ a = b
  | .comment _, .comment _ | .blockComment _, .blockComment _
  | .substitution _, .substitution _ => by simp [Entry.same]
  | .key k, .key k' => by simp [Entry.same, Key.same_iff k k']
  | .comment _, .blockComment _ | .comment _, .substitution _ | .comment _, .key _
  | .blockComment _, .comment _ | .blockComment _, .substitution _ | .blockComment _, .key _
  | .substitution _, .comment _ | .substitution _, .blockComment _ | .substitution _, .key _
  | .key _, .comment _ | .key _, .blockComment _ | .key _, .substitution _ => by
    simp [Entry.same]
termination_by structural a => a

theorem Key.same_iff : ∀ a b : Key ρ, a.same b = true ↔ a = b
  | ⟨r, a, p, e, i, g, s, v⟩, ⟨r', a', p', e', i', g', s', v'⟩ => by
    simp [Key.same, Value.same?_iff v v', and_assoc]
termination_by structural a => a

theorem Value.same?_iff : ∀ a b : Option (Value ρ), Value.same? a b = true ↔ a = b
  | none, none | none, some _ | some _, none => by simp [Value.same?]
  | some v, some v' => by simp [Value.same?, Value.same_iff v v']
termination_by structural a => a

theorem Item.sameAll_iff : ∀ as bs : List (Item ρ), Item.sameAll as bs = true ↔ as = bs
  | [], [] | [], _ :: _ | _ :: _, [] => by simp [Item.sameAll]
  | a :: as, b :: bs => by simp [Item.sameAll, Item.same_iff a b, Item.sameAll_iff as bs]
termination_by structural a => a

theorem Entry.sameAll_iff : ∀ as bs : List (Entry ρ), Entry.sameAll as bs = true ↔ as = bs
  | [], [] | [], _ :: _ | _ :: _, [] => by simp [Entry.sameAll]
  | a :: as, b :: bs => by simp [Entry.sameAll, Entry.same_iff a b, Entry.sameAll_iff as bs]
termination_by structural a => a

end

instance : DecidableEq (Value ρ) := fun a b => decidable_of_iff _ (Value.same_iff a b)
instance : DecidableEq (Sequence ρ) := fun a b => decidable_of_iff _ (Sequence.same_iff a b)
instance : DecidableEq (Map ρ) := fun a b => decidable_of_iff _ (Map.same_iff a b)
instance : DecidableEq (Item ρ) := fun a b => decidable_of_iff _ (Item.same_iff a b)
instance : DecidableEq (Entry ρ) := fun a b => decidable_of_iff _ (Entry.same_iff a b)
instance : DecidableEq (Key ρ) := fun a b => decidable_of_iff _ (Key.same_iff a b)

end Diagram
