import Diagram.Tree.Mark

/-!
Documents: trees that hold nothing but names, texts, lists and maps. `Document.render` writes a
document in its canonical form, with every text in double quotes; `Map.document?` reads a document
off the tree of a diagram, if that holds nothing else.
-/
namespace Diagram

namespace Document

/-- The path of an entry, with at least one name. -/
structure Path where
  first : String
  rest : List String
  deriving DecidableEq, Repr

mutual

/-- What an entry or a list may hold. -/
inductive Value where
  | text (content : String)
  | list (items : List Value)
  | map (entries : List Entry)

/-- A path, with a value or without. -/
structure Entry where
  path : Path
  value : Option Value

end

/-! ## The written form -/

/-- How a character is written between double quotes; a dollar sign is escaped where it could
start a substitution. -/
def escape (substitutes : Bool) (c : Char) : List Char :=
  if c = '\n' then ['\\', 'n']
  else if c = '"' || c = '\\' || (substitutes && c = '$') then ['\\', c]
  else [c]

def quoted (substitutes : Bool) (text : String) : List Char :=
  '"' :: (text.toList.flatMap (escape substitutes) ++ ['"'])

def Path.render (path : Path) : List Char :=
  ['.'].intercalate ((path.first :: path.rest).map (quoted false))

mutual

def Value.render : Value → List Char
  | .text content => quoted true content
  | .list items => '[' :: ([';', ' '].intercalate (Value.renderAll items) ++ [']'])
  | .map entries => '{' :: '\n' :: (['\n'].intercalate (Entry.renderAll entries) ++ ['\n', '}'])

def Entry.render : Entry → List Char
  | ⟨path, none⟩ => path.render
  | ⟨path, some value⟩ => path.render ++ ':' :: ' ' :: value.render

def Value.renderAll : List Value → List (List Char)
  | [] => []
  | value :: values => value.render :: Value.renderAll values

def Entry.renderAll : List Entry → List (List Char)
  | [] => []
  | entry :: entries => entry.render :: Entry.renderAll entries

end

theorem Value.renderAll_eq (values : List Value) :
    Value.renderAll values = values.map Value.render := by
  induction values with
  | nil => rfl
  | cons value values ih => rw [Value.renderAll, ih, List.map_cons]

theorem Entry.renderAll_eq (entries : List Entry) :
    Entry.renderAll entries = entries.map Entry.render := by
  induction entries with
  | nil => rfl
  | cons entry entries ih => rw [Entry.renderAll, ih, List.map_cons]

/-- What is written behind the path of an entry. -/
def Entry.behindPath (entry : Entry) : List Char :=
  match entry.value with
  | none => []
  | some value => ':' :: ' ' :: value.render

theorem Entry.render_eq (entry : Entry) :
    entry.render = entry.path.render ++ entry.behindPath := by
  obtain ⟨path, value⟩ := entry
  cases value with
  | none => exact (List.append_nil _).symm
  | some value => rfl

/-! ## The first characters of a written form -/

theorem quoted_append (substitutes : Bool) (text : String) (u : List Char) :
    quoted substitutes text ++ u =
      '"' :: (text.toList.flatMap (escape substitutes) ++ '"' :: u) := by
  simp [quoted]

/-- A text between quotes does not look like the start of a block comment, unless a quote follows
it. -/
theorem quoted_not_opensComment (substitutes : Bool) (text : String) {u w : List Char}
    (hu : u.head? ≠ some '"') (hw : quoted substitutes text ++ u = '"' :: w) :
    ¬['"', '"'] <+: w := by
  rw [quoted_append, List.cons.injEq] at hw
  obtain ⟨-, rfl⟩ := hw
  rintro ⟨v, hv⟩
  match hcs : text.toList with
  | [] =>
    rw [hcs] at hv
    have hhead := congrArg (fun cs => cs.tail.head?) hv
    exact hu (by simpa using hhead.symm)
  | c :: cs =>
    rw [hcs] at hv
    have hhead := congrArg List.head? hv
    by_cases hline : c = '\n'
    · simp [escape, hline] at hhead
    by_cases hescaped : (c = '"' || c = '\\' || (substitutes && c = '$')) = true
    · simp [escape, hline, hescaped] at hhead
    · simp [escape, hline, hescaped] at hhead
      simp [← hhead] at hescaped

/-- A path is a quoted text and, behind it, nothing or a point and more. -/
theorem Path.render_eq (path : Path) :
    ∃ tail, path.render = quoted false path.first ++ tail ∧
      (tail = [] ∨ ∃ w, tail = '.' :: w) := by
  obtain ⟨first, rest⟩ := path
  cases rest with
  | nil => exact ⟨[], by simp [Path.render, List.intercalate], .inl rfl⟩
  | cons second rest =>
    refine ⟨'.' :: ['.'].intercalate ((second :: rest).map (quoted false)), ?_, .inr ⟨_, rfl⟩⟩
    simp [Path.render, List.intercalate]

theorem Path.render_cons (path : Path) : ∃ w, path.render = '"' :: w := by
  obtain ⟨tail, hrender, -⟩ := path.render_eq
  exact ⟨_, hrender.trans (quoted_append false path.first tail)⟩

theorem Entry.render_cons (entry : Entry) : ∃ w, entry.render = '"' :: w := by
  obtain ⟨w, hw⟩ := entry.path.render_cons
  exact ⟨w ++ entry.behindPath, by rw [entry.render_eq, hw]; rfl⟩

theorem Entry.not_opensComment (entry : Entry) {u w : List Char} (hu : u.head? ≠ some '"')
    (hw : entry.render ++ u = '"' :: w) : ¬['"', '"'] <+: w := by
  obtain ⟨tail, hrender, htail⟩ := entry.path.render_eq
  rw [entry.render_eq, hrender, List.append_assoc, List.append_assoc] at hw
  refine quoted_not_opensComment false entry.path.first ?_ hw
  rcases htail with rfl | ⟨v, rfl⟩
  · obtain ⟨path, value⟩ := entry
    cases value with
    | none => exact hu
    | some value => simp [Entry.behindPath]
  · simp

/-- A value starts with a quote or a bracket. -/
theorem Value.render_cons (value : Value) :
    ∃ c w, value.render = c :: w ∧ (c = '"' ∨ c = '[' ∨ c = '{') := by
  cases value with
  | text content => exact ⟨'"', _, rfl, .inl rfl⟩
  | list items => exact ⟨'[', _, rfl, .inr (.inl rfl)⟩
  | map entries => exact ⟨'{', _, rfl, .inr (.inr rfl)⟩

theorem Value.not_opensComment (value : Value) {u w : List Char} (hu : u.head? ≠ some '"')
    (hw : value.render ++ u = '"' :: w) : ¬['"', '"'] <+: w := by
  cases value with
  | text content => exact quoted_not_opensComment true content hu hw
  | list items => simp [Value.render] at hw
  | map entries => simp [Value.render] at hw

/-! ## Lists and maps inside each other -/

mutual

/-- The number of lists and maps inside each other. -/
def Value.nesting : Value → Nat
  | .text _ => 0
  | .list items => Value.nestingAll items + 1
  | .map entries => Entry.nestingAll entries + 1

def Entry.nesting : Entry → Nat
  | ⟨_, none⟩ => 0
  | ⟨_, some value⟩ => value.nesting

def Value.nestingAll : List Value → Nat
  | [] => 0
  | value :: values => max value.nesting (Value.nestingAll values)

def Entry.nestingAll : List Entry → Nat
  | [] => 0
  | entry :: entries => max entry.nesting (Entry.nestingAll entries)

end

theorem Value.nesting_le {items : List Value} {v : Value} (h : v ∈ items) :
    v.nesting ≤ Value.nestingAll items := by
  induction items with
  | nil => cases h
  | cons w items ih =>
    rw [Value.nestingAll]
    rcases List.mem_cons.mp h with rfl | h
    · exact Nat.le_max_left _ _
    · exact Nat.le_trans (ih h) (Nat.le_max_right _ _)

theorem Entry.nesting_le {entries : List Entry} {e : Entry} {v : Value} (h : e ∈ entries)
    (hv : v ∈ e.value) : v.nesting ≤ Entry.nestingAll entries := by
  induction entries with
  | nil => cases h
  | cons x entries ih =>
    rw [Entry.nestingAll]
    rcases List.mem_cons.mp h with rfl | h
    · obtain ⟨path, value⟩ := e
      obtain rfl : value = some v := hv
      exact Nat.le_max_left _ _
    · exact Nat.le_trans (ih h) (Nat.le_max_right _ _)

/-- Induction on the values inside each other. -/
theorem Value.nested_induction {P : Value → Prop} (htext : ∀ content, P (.text content))
    (hlist : ∀ items, (∀ v ∈ items, P v) → P (.list items))
    (hmap : ∀ entries, (∀ e ∈ entries, ∀ v ∈ e.value, P v) → P (.map entries)) (v : Value) :
    P v :=
  go v
where
  go : (v : Value) → P v
    | .text content => htext content
    | .list items => hlist items (goAll items)
    | .map entries => hmap entries (goEntries entries)
  goAll : (items : List Value) → ∀ v ∈ items, P v
    | [] => by simp
    | v :: items => List.forall_mem_cons.mpr ⟨go v, goAll items⟩
  goEntry : (e : Entry) → ∀ v ∈ e.value, P v
    | ⟨_, none⟩ => by simp
    | ⟨_, some v⟩ => fun _ h => Option.some.inj h ▸ go v
  goEntries : (entries : List Entry) → ∀ e ∈ entries, ∀ v ∈ e.value, P v
    | [] => by simp
    | e :: entries => List.forall_mem_cons.mpr ⟨goEntry e, goEntries entries⟩

end Document

/-- The entries of a whole file. -/
structure Document where
  entries : List Document.Entry

namespace Document

/-- The canonical form of a document, with one entry on each line. -/
def render (document : Document) : String :=
  String.ofList (['\n'].intercalate (Entry.renderAll document.entries))

def nesting (document : Document) : Nat :=
  Entry.nestingAll document.entries

end Document

/-! ## Reading a document off a tree -/

section

variable {ρ : Type}

/-- The text that a node stands for, if there is nothing else in it. -/
def Text.plain? (t : Text ρ) : Option String :=
  match t.pieces? with
  | none | some [] | some [.literal _ _] => some t.content
  | some _ => none

/-- The names of a path, if there are any. -/
def KeyPath.document? (path : KeyPath ρ) : Option Document.Path := do
  match ← path.segments.mapM Text.plain? with
  | [] => none
  | first :: rest => some ⟨first, rest⟩

mutual

def Value.document? : Value ρ → Option Document.Value
  | .scalar (.text t) => t.plain?.map .text
  | .scalar _ => none
  | .sequence ⟨_, items⟩ => (Item.documents? items).map .list
  | .map ⟨_, entries⟩ => (Entry.documents? entries).map .map

def Item.documents? : List (Item ρ) → Option (List Document.Value)
  | [] => some []
  | .value v :: items => do return (← v.document?) :: (← Item.documents? items)
  | _ :: _ => none

def Entry.documents? : List (Entry ρ) → Option (List Document.Entry)
  | [] => some []
  | .key k :: entries => do return (← k.document?) :: (← Entry.documents? entries)
  | _ :: _ => none

/-- The entry that a key stands for, if it has no other parts than a path and a value. -/
def Key.document? : Key ρ → Option Document.Entry
  | ⟨_, false, some path, [], none, none, none, none⟩ => path.document?.map (⟨·, none⟩)
  | ⟨_, false, some path, [], none, none, none, some v⟩ => do
    return ⟨← path.document?, some (← v.document?)⟩
  | _ => none

end

/-- What an item of a list stands for, if it is no remark. -/
def Item.document? : Item ρ → Option Document.Value
  | .value v => v.document?
  | _ => none

/-- What an entry of a map stands for, if it is no remark. -/
def Entry.document? : Entry ρ → Option Document.Entry
  | .key k => k.document?
  | _ => none

theorem Item.documents?_of_map {items : List (Item ρ)} {values : List Document.Value}
    (h : items.map Item.document? = values.map some) : Item.documents? items = some values := by
  induction items generalizing values with
  | nil =>
    cases values with
    | nil => rfl
    | cons v values => cases h
  | cons item items ih =>
    cases values with
    | nil => cases h
    | cons v values =>
      rw [List.map_cons, List.map_cons, List.cons.injEq] at h
      obtain ⟨hitem, hitems⟩ := h
      cases item with
      | value t =>
        have hvalue : t.document? = some v := hitem
        simp [Item.documents?, hvalue, ih hitems]
      | comment _ | blockComment _ | substitution _ => cases hitem

theorem Entry.documents?_of_map {entries : List (Entry ρ)} {es : List Document.Entry}
    (h : entries.map Entry.document? = es.map some) : Entry.documents? entries = some es := by
  induction entries generalizing es with
  | nil =>
    cases es with
    | nil => rfl
    | cons e es => cases h
  | cons entry entries ih =>
    cases es with
    | nil => cases h
    | cons e es =>
      rw [List.map_cons, List.map_cons, List.cons.injEq] at h
      obtain ⟨hentry, hentries⟩ := h
      cases entry with
      | key k =>
        have hkey : k.document? = some e := hentry
        simp [Entry.documents?, hkey, ih hentries]
      | comment _ | blockComment _ | substitution _ => cases hentry

/-- The document that a tree stands for, read through the contents of its texts. -/
def Map.document? (map : Map ρ) : Option Document :=
  (Entry.documents? map.entries).map (⟨·⟩)

end

/-! ## Documents and marks -/

section

variable {ρ σ : Type} (f : ρ → σ)

theorem Text.plain?_mapMarks (t : Text ρ) : (t.mapMarks f).plain? = t.plain? := by
  have hpieces : ∀ pieces : List (Piece ρ),
      (Text.unquoted (f t.range) (Piece.mapMarksAll f pieces)).plain? =
        (Text.unquoted t.range pieces).plain? := by
    intro pieces
    match pieces with
    | [] | [.literal _ _] | [.substitution _] | .literal _ _ :: _ :: _
    | .substitution _ :: _ :: _ => rfl
  cases t with
  | unquoted range pieces => exact hpieces pieces
  | doubleQuoted range pieces => exact hpieces pieces
  | singleQuoted _ _ | block _ _ _ _ => rfl

theorem KeyPath.document?_mapMarks (path : KeyPath ρ) :
    (path.mapMarks f).document? = path.document? := by
  have hnames : (path.segments.map (Text.mapMarks f)).mapM Text.plain? =
      path.segments.mapM Text.plain? := by
    rw [List.mapM_map]
    simp only [Function.comp_def, Text.plain?_mapMarks]
  simp only [KeyPath.document?, KeyPath.mapMarks, Text.mapMarksAll_eq, hnames]

mutual

theorem Value.document?_mapMarks : (v : Value ρ) → (v.mapMarks f).document? = v.document?
  | .scalar (.text t) => congrArg (Option.map Document.Value.text) (Text.plain?_mapMarks f t)
  | .scalar (.null _) | .scalar (.boolean _ _) | .scalar (.number _ _ _) => rfl
  | .sequence ⟨_, items⟩ =>
    congrArg (Option.map Document.Value.list) (Item.documents?_mapMarks items)
  | .map ⟨_, entries⟩ =>
    congrArg (Option.map Document.Value.map) (Entry.documents?_mapMarks entries)

theorem Item.documents?_mapMarks : (items : List (Item ρ)) →
    Item.documents? (Item.mapMarksAll f items) = Item.documents? items
  | [] => rfl
  | .value v :: items => by
    have hvalue := Value.document?_mapMarks v
    have hitems := Item.documents?_mapMarks items
    simp only [Item.mapMarksAll, Item.mapMarks, Item.documents?, hvalue, hitems]
  | .comment _ :: _ | .blockComment _ :: _ | .substitution _ :: _ => rfl

theorem Entry.documents?_mapMarks : (entries : List (Entry ρ)) →
    Entry.documents? (Entry.mapMarksAll f entries) = Entry.documents? entries
  | [] => rfl
  | .key k :: entries => by
    have hkey := Key.document?_mapMarks k
    have hentries := Entry.documents?_mapMarks entries
    simp only [Entry.mapMarksAll, Entry.mapMarks, Entry.documents?, hkey, hentries]
  | .comment _ :: _ | .blockComment _ :: _ | .substitution _ :: _ => rfl

theorem Key.document?_mapMarks : (k : Key ρ) → (k.mapMarks f).document? = k.document?
  | ⟨_, false, some path, [], none, none, none, none⟩ => by
    have hpath := KeyPath.document?_mapMarks f path
    simp [Key.mapMarks, Value.mapMarks?, Key.document?, hpath]
  | ⟨_, false, some path, [], none, none, none, some v⟩ => by
    have hpath := KeyPath.document?_mapMarks f path
    have hvalue := Value.document?_mapMarks v
    simp [Key.mapMarks, Value.mapMarks?, Key.document?, hpath, hvalue]
  | ⟨_, true, path, edges, index, edgePath, primary, value⟩ => rfl
  | ⟨_, false, none, edges, index, edgePath, primary, value⟩ => rfl
  | ⟨_, false, some _, _ :: _, index, edgePath, primary, value⟩ => rfl
  | ⟨_, false, some _, [], some _, edgePath, primary, value⟩ => rfl
  | ⟨_, false, some _, [], none, some _, primary, value⟩ => rfl
  | ⟨_, false, some _, [], none, none, some _, value⟩ => rfl

end

/-- Where a tree was read from makes no difference to the document it stands for. -/
theorem Map.document?_mapMarks (m : Map ρ) : (m.mapMarks f).document? = m.document? := by
  cases m
  exact congrArg (Option.map _) (Entry.documents?_mapMarks f _)

end

end Diagram
