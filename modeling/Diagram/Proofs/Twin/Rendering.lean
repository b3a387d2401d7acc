import Diagram.Grammar.Container
import Diagram.Proofs.Twin.Pairing
import Diagram.Tree.Mark

/-!
How the second run has what the first run reads. Both read the same scalars, but a container may
come out in another form, and the second run may notice problems of its own in it. The forms of
keys, entries and items follow from those of the containers.
-/
namespace Diagram

variable {π : Type}

/-- The containers of the second run for those of the first, with the problems that the second run
notices in them, latest first. -/
structure Rendering (π : Type) where
  sequence : Sequence (Span Nat) → Sequence (Span π)
  map : Map (Span Nat) → Map (Span π)
  sequenceNotes : Sequence (Span Nat) → List (Problem π)
  mapNotes : Map (Span Nat) → List (Problem π)

namespace Rendering

/-- The same containers in other places, and no problems. -/
def plain (f : Nat → π) : Rendering π where
  sequence := Sequence.mapMarks (Span.map f)
  map := Map.mapMarks (Span.map f)
  sequenceNotes _ := []
  mapNotes _ := []

variable (φ : Rendering π) (f : Nat → π)

/-! ## Forms -/

def value : Value (Span Nat) → Value (Span π)
  | .scalar s => .scalar (s.mapMarks (Span.map f))
  | .sequence s => .sequence (φ.sequence s)
  | .map m => .map (φ.map m)

def key (key : Key (Span Nat)) : Key (Span π) :=
  { key.mapMarks (Span.map f) with value := key.value.map (φ.value f) }

def entry : Entry (Span Nat) → Entry (Span π)
  | .key k => .key (φ.key f k)
  | .comment c => .comment (c.mapMarks (Span.map f))
  | .blockComment c => .blockComment (c.mapMarks (Span.map f))
  | .substitution s => .substitution (s.mapMarks (Span.map f))

def item : Item (Span Nat) → Item (Span π)
  | .value v => .value (φ.value f v)
  | .comment c => .comment (c.mapMarks (Span.map f))
  | .blockComment c => .blockComment (c.mapMarks (Span.map f))
  | .substitution s => .substitution (s.mapMarks (Span.map f))

/-- The entries of the second run, of which some have been gathered before the common text. -/
def entries (before : List (Entry (Span π))) (entries : List (Entry (Span Nat))) :
    List (Entry (Span π)) :=
  entries.map (φ.entry f) ++ before

/-- A sequence that is entered. -/
def enteredSequence : Sequence (Span Nat) → Sequence (Span π)
  | ⟨range, items⟩ => ⟨range.map f, items.map (φ.item f)⟩

/-- A map that is entered. -/
def enteredMap : Map (Span Nat) → Map (Span π)
  | ⟨range, entries⟩ => ⟨range.map f, entries.map (φ.entry f)⟩

/-! ## Problems -/

def valueNotes : Value (Span Nat) → List (Problem π)
  | .scalar _ => []
  | .sequence s => φ.sequenceNotes s
  | .map m => φ.mapNotes m

def valueNotes? : Option (Value (Span Nat)) → List (Problem π)
  | none => []
  | some v => φ.valueNotes v

/-- The problems in a key as far as it has been read;
the value of one that names nothing is dropped. -/
def keyNotes (key : Key (Span Nat)) : List (Problem π) :=
  if key.isNamed then φ.valueNotes? key.value else []

def keyNotes? : Option (Key (Span Nat)) → List (Problem π)
  | none => []
  | some k => φ.valueNotes? k.value

def entryNotes : Entry (Span Nat) → List (Problem π)
  | .key k => φ.valueNotes? k.value
  | .comment _ | .blockComment _ | .substitution _ => []

def itemNotes : Item (Span Nat) → List (Problem π)
  | .value v => φ.valueNotes v
  | .comment _ | .blockComment _ | .substitution _ => []

/-- The problems in entries, latest first like the entries. -/
def entriesNotes (entries : List (Entry (Span Nat))) : List (Problem π) :=
  entries.flatMap φ.entryNotes

/-- The problems in items, latest first like the items. -/
def itemsNotes (items : List (Item (Span Nat))) : List (Problem π) :=
  items.flatMap φ.itemNotes

def enteredSequenceNotes (sequence : Sequence (Span Nat)) : List (Problem π) :=
  φ.itemsNotes sequence.items.reverse

def enteredMapNotes (map : Map (Span Nat)) : List (Problem π) :=
  φ.entriesNotes map.entries.reverse

/-- What the second run notices in more entries comes on top. -/
theorem noting_entries (K : Pairing π) (entries entries' : List (Entry (Span Nat))) :
    (K.noting (φ.entriesNotes entries)).noting (φ.entriesNotes entries') =
      K.noting (φ.entriesNotes (entries' ++ entries)) := by
  rw [Pairing.noting_noting, entriesNotes, entriesNotes, entriesNotes, List.flatMap_append]

theorem noting_items (K : Pairing π) (items items' : List (Item (Span Nat))) :
    (K.noting (φ.itemsNotes items)).noting (φ.itemsNotes items') =
      K.noting (φ.itemsNotes (items' ++ items)) := by
  rw [Pairing.noting_noting, itemsNotes, itemsNotes, itemsNotes, List.flatMap_append]

/-! ## What a node is called -/

theorem typeName_value (v : Value (Span Nat)) : (φ.value f v).typeName = v.typeName := by
  match v with
  | .scalar (.text t) => cases t <;> rfl
  | .scalar (.null _) | .scalar (.boolean _ _) | .scalar (.number _ _ _) => rfl
  | .sequence _ | .map _ => rfl

theorem typeName_item (x : Item (Span Nat)) : (φ.item f x).typeName = x.typeName := by
  cases x with
  | value v => exact φ.typeName_value f v
  | comment _ | blockComment _ | substitution _ => rfl

theorem leadingName_entry (e : Entry (Span Nat)) :
    Grammar.leadingName (φ.entry f e) = Grammar.leadingName e := by
  match e with
  | .key ⟨_, _, _, _, _, _, _, some v⟩ => exact φ.typeName_value f v
  | .key ⟨_, _, _, _, _, _, _, none⟩ => rfl
  | .comment _ | .blockComment _ | .substitution _ => rfl

/-! ## Nodes without a container -/

theorem key_of_none {key : Key (Span Nat)} (h : key.value = none) :
    φ.key f key = key.mapMarks (Span.map f) := by
  rw [Rendering.key, Key.mapMarks_eq, h]
  rfl

theorem keyNotes_of_none {key : Key (Span Nat)} (h : key.value = none) : φ.keyNotes key = [] := by
  rw [keyNotes, h]
  exact ite_self []

/-- The problems in a key that is named, or in any key if there are none in values. -/
theorem keyNotes_of_named {key : Key (Span Nat)}
    (h : key.isNamed = true ∨ ∀ v, φ.valueNotes? v = []) :
    φ.keyNotes key = φ.valueNotes? key.value := by
  rw [keyNotes]
  split
  · rfl
  · rename_i hunnamed
    exact (h.resolve_left hunnamed key.value).symm

/-! ## The plain rendering -/

@[simp] theorem plain_value : (plain f).value f = Value.mapMarks (Span.map f) := by
  funext v
  cases v <;> rfl

@[simp] theorem plain_key : (plain f).key f = Key.mapMarks (Span.map f) := by
  funext k
  rw [key, plain_value, Key.mapMarks_eq]

@[simp] theorem plain_entry : (plain f).entry f = Entry.mapMarks (Span.map f) := by
  funext e
  cases e with
  | key k => exact congrArg Entry.key (congrFun (plain_key f) k)
  | comment _ | blockComment _ | substitution _ => rfl

@[simp] theorem plain_item : (plain f).item f = Item.mapMarks (Span.map f) := by
  funext x
  cases x with
  | value v => exact congrArg Item.value (congrFun (plain_value f) v)
  | comment _ | blockComment _ | substitution _ => rfl

@[simp] theorem plain_valueNotes (v : Value (Span Nat)) : (plain f).valueNotes v = [] := by
  cases v <;> rfl

@[simp] theorem plain_valueNotes? (v : Option (Value (Span Nat))) :
    (plain f).valueNotes? v = [] := by
  cases v with
  | none => rfl
  | some v => exact plain_valueNotes f v

@[simp] theorem plain_keyNotes? (k : Option (Key (Span Nat))) : (plain f).keyNotes? k = [] := by
  cases k with
  | none => rfl
  | some k => exact plain_valueNotes? f k.value

@[simp] theorem plain_entryNotes (e : Entry (Span Nat)) : (plain f).entryNotes e = [] := by
  cases e with
  | key k => exact plain_valueNotes? f k.value
  | comment _ | blockComment _ | substitution _ => rfl

@[simp] theorem plain_entriesNotes (entries : List (Entry (Span Nat))) :
    (plain f).entriesNotes entries = [] := by
  simp [entriesNotes]

theorem plain_entries (before : List (Entry (Span π))) (entries : List (Entry (Span Nat))) :
    (plain f).entries f before entries = entries.map (Entry.mapMarks (Span.map f)) ++ before := by
  rw [Rendering.entries, plain_entry]

@[simp] theorem plain_itemsNotes (items : List (Item (Span Nat))) :
    (plain f).itemsNotes items = [] := by
  simp only [itemsNotes, List.flatMap_eq_nil_iff]
  rintro (_ | _ | _ | v) _
  · rfl
  · rfl
  · rfl
  · exact plain_valueNotes f v

theorem plain_enteredSequence :
    (plain f).enteredSequence f = Sequence.mapMarks (Span.map f) := by
  funext s
  obtain ⟨range, items⟩ := s
  rw [enteredSequence, plain_item, Sequence.mapMarks, Item.mapMarksAll_eq]

theorem plain_enteredMap : (plain f).enteredMap f = Map.mapMarks (Span.map f) := by
  funext m
  obtain ⟨range, entries⟩ := m
  rw [enteredMap, plain_entry, Map.mapMarks, Entry.mapMarksAll_eq]

end Rendering

end Diagram
