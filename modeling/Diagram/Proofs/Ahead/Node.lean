import Diagram.Proofs.Ahead.Basic
import Diagram.Proofs.Sound.Parse
import Mathlib.Data.List.Forall2

/-!
Nodes of which the parts are known to be read. A key is read if its path and its value are, an entry
if its key is, and a map if its entries are; nothing is reported where a node is followed by what
ends it. So nothing is wrong with a whole text that these rules read.
-/
namespace Diagram

/-- A key with a path, perhaps a value, and nothing else. -/
def Key.plain {ρ : Type} (range : ρ) (path : KeyPath ρ) (value : Option (Value ρ)) : Key ρ :=
  ⟨range, false, some path, [], none, none, none, value⟩

theorem Key.mapMarks_plain {ρ σ : Type} (f : ρ → σ) (range : ρ) (path : KeyPath ρ)
    (value : Option (Value ρ)) :
    (Key.plain range path value).mapMarks f =
      .plain (f range) (path.mapMarks f) (Value.mapMarks? f value) := rfl

namespace Grammar

variable {π : Type} {F : Frame π} {p u v w b : List Char}

/-! ## What follows a node -/

/-- No text follows a node in front of `u`: the line ends, or the node is ended. -/
def EndsNode (closing : Char) (u : List Char) : Prop :=
  EndsLine u ∨ ∃ c v, u = c :: v ∧ isBlank c = false ∧ (c = ';' ∨ c = closing)

theorem trailingCharacter_none {closing : Char} (hu : EndsNode closing u) :
    Ahead F p [] u (trailingCharacter closing ())
      (Arrives F u fun next => ∃ g, next = .stop g ∧ True) := by
  rcases hu with hend | ⟨c, v, rfl, hvisible, hc⟩
  · exact .peekLineEnd hend (.done ⟨(), rfl, trivial⟩)
  · refine .peekOnLine (b := []) (by simp) hvisible (.no ?_ (.retreat (.done ⟨(), rfl, trivial⟩)))
    rcases hc with rfl | rfl
    · simp
    · simp

/-- Where nothing follows a node, nothing is reported. -/
theorem trailingText_none [DecidableEq π] {typeName : Option String} {closing : Char}
    {fallback : Cause} (hu : EndsNode closing u) :
    Ahead F p [] u (trailingText typeName closing fallback) (Arrives F u fun _ => True) := by
  refine .known fun hp => .here (.call (.stop (trailingCharacter_none hu)) fun _ q _ => ?_)
  refine .known fun hq => .here ?_
  -- the text in front of `u` is the same before and after
  have hsame : p = q := by
    have h := hp.trans hq.symm
    simpa using h
  subst hsame
  exact .skip (by simp) (.done trivial)

/-- What stands behind a path: the end of the line, or a visible character other than a point. -/
def FollowsPath (u : List Char) : Prop :=
  EndsLine u ∨ ∃ c v, u = c :: v ∧ isBlank c = false ∧ c ≠ '.'

theorem pathPoint_follows {segments : List (Text (Span π))} (hu : FollowsPath u) :
    Ahead F p [] u (pathPoint segments)
      (Arrives F u fun next => ∃ s, next = .stop s ∧ s = segments) := by
  rcases hu with hend | ⟨c, v, rfl, hvisible, hpoint⟩
  · exact .peekLineEnd hend (.done ⟨segments, rfl, rfl⟩)
  · refine .peekOnLine (b := []) (by simp) hvisible ?_
    exact .no hpoint (.retreat (.done ⟨segments, rfl, rfl⟩))

/-! ## Paths -/

/-- In a path that `u` follows, a segment is written as `written` and read as a text with `R`. -/
structure SegmentFound (F : Frame π) (u written : List Char) (R : Text (Span π) → Prop) : Prop where
  starts : ∃ c w, written = c :: w ∧ isBlank c = false ∧ c ≠ '('
  reads : ∀ p v, (v = u ∨ ∃ w, v = '.' :: w) →
    Ahead F p [] (written ++ v) (text .key) (Arrives F v fun r => ∃ t, r = some t ∧ R t)

/-- A segment is read, and then what is behind it. -/
theorem pathSegment_found {written : List Char} {R : Text (Span π) → Prop}
    {segments : List (Text (Span π))} {Q : Next (List (Text (Span π))) → State π → Prop}
    (hsegment : SegmentFound F u written R) (hv : v = u ∨ ∃ w, v = '.' :: w)
    (h : ∀ t q, R t → Ahead F q [] v (pathPoint (t :: segments)) Q) :
    Ahead F p [] (written ++ v) (pathSegment segments) Q := by
  obtain ⟨c, w, rfl, hvisible, hc⟩ := hsegment.starts
  refine .peekOnLine (b := []) (by simp) hvisible (.retreat (.no hc ?_))
  refine .call (hsegment.reads p v hv) fun r q hr => ?_
  obtain ⟨t, rfl, ht⟩ := hr
  exact h t q ht

/-- The segments of a path are read one after the other. -/
theorem pathSegments_found {ι : Type} {written : ι → List Char} {R : ι → Text (Span π) → Prop}
    (first : ι) (rest : List ι) {segments : List (Text (Span π))} (hu : FollowsPath u)
    (hfound : ∀ i ∈ first :: rest, SegmentFound F u (written i) (R i)) :
    Ahead F p [] (['.'].intercalate ((first :: rest).map written) ++ u)
      (repeating pathSegment segments)
      (Arrives F u fun s => ∃ new, s = new.reverse ++ segments ∧
        List.Forall₂ R (first :: rest) new) := by
  -- each point goes with the segment in front of it
  induction rest generalizing first segments p with
  | nil =>
    have hone : ['.'].intercalate ([first].map written) = written first := by
      simp [List.intercalate]
    rw [hone]
    have hstep : Ahead F p [] (written first ++ u) (pathSegment segments)
        (Arrives F u fun next => ∃ s, next = .stop s ∧ ∃ t, R first t ∧ s = t :: segments) := by
      refine pathSegment_found (hfound first List.mem_cons_self) (.inl rfl) fun t q ht => ?_
      apply Ahead.mono (pathPoint_follows hu)
      intro next h
      obtain ⟨s, hnext, hs⟩ := h
      exact ⟨s, hnext, t, ht, hs⟩
    apply Ahead.mono (.stop hstep)
    intro s h
    obtain ⟨t, ht, rfl⟩ := h
    exact ⟨[t], rfl, .cons ht .nil⟩
  | cons second rest ih =>
    have hmore : ['.'].intercalate ((first :: second :: rest).map written) ++ u =
        written first ++ '.' :: (['.'].intercalate ((second :: rest).map written) ++ u) := by
      simp [List.intercalate]
    rw [hmore]
    refine .again (v := ['.'].intercalate ((second :: rest).map written) ++ u)
      (R := fun s => ∃ t, R first t ∧ s = t :: segments) ?_ ?_ fun s q h => ?_
    · refine pathSegment_found (hfound first List.mem_cons_self) (.inr ⟨_, rfl⟩) fun t q ht => ?_
      refine .peekOnLine (b := []) (by simp) (by decide) (.yes rfl (.accept (.done ?_)))
      exact ⟨_, rfl, t, ht, rfl⟩
    · simp only [List.length_append, List.length_cons]
      omega
    · obtain ⟨t, ht, rfl⟩ := h
      apply Ahead.mono (ih second fun i hi => hfound i (List.mem_cons_of_mem _ hi))
      intro s h
      obtain ⟨new, rfl, hnew⟩ := h
      exact ⟨t :: new, by simp, .cons ht hnew⟩

/-- A path is read from its segments. -/
theorem path_found {ι : Type} {written : ι → List Char} {R : ι → Text (Span π) → Prop}
    (first : ι) (rest : List ι) (hu : FollowsPath u)
    (hfound : ∀ i ∈ first :: rest, SegmentFound F u (written i) (R i)) :
    Ahead F p [] (['.'].intercalate ((first :: rest).map written) ++ u) Grammar.path
      (Arrives F u fun r => ∃ k, r = some k ∧ List.Forall₂ R (first :: rest) k.segments) := by
  refine .here (.call (pathSegments_found first rest hu hfound) fun s q h => ?_)
  obtain ⟨new, rfl, hnew⟩ := h
  rw [List.append_nil]
  have hne : new ≠ [] := by
    rintro rfl
    cases hnew
  refine .no (by simpa using hne) (.here (.done ⟨_, rfl, ?_⟩))
  rwa [List.reverse_reverse]

/-! ## Keys -/

section

variable {value : Grammar π (Option (Value (Span π)))} {range : Span π} {k : KeyPath (Span π)}

theorem valueOfKey_found {R : Value (Span π) → Prop}
    (hvalue : Ahead F p [] v value (Arrives F u fun r => ∃ x, r = some x ∧ R x))
    (hu : EndsLine u) :
    Ahead F p [] v (valueOfKey value (Key.plain range k none))
      (Arrives F u fun key => ∃ x, R x ∧ key = Key.plain range k (some x)) := by
  refine .call hvalue fun r q hr => ?_
  obtain ⟨x, rfl, hx⟩ := hr
  -- only behind a scalar may there be a map as well, and so the line has to end there
  cases x with
  | scalar s => exact .peekLineEnd hu (.done ⟨.scalar s, hx, rfl⟩)
  | sequence s => exact .done ⟨.sequence s, hx, rfl⟩
  | map m => exact .done ⟨.map m, hx, rfl⟩

/-- Behind its path, a key goes on with a colon and its value. -/
theorem keyBehindPath_colon {R : Value (Span π) → Prop}
    (hvalue : ∀ p, Ahead F p [] v value (Arrives F u fun r => ∃ x, r = some x ∧ R x))
    (hu : EndsLine u) :
    Ahead F p [] (':' :: v) (keyBehindPath value (Key.plain range k none))
      (Arrives F u fun key => ∃ x, R x ∧ key = Key.plain range k (some x)) := by
  refine .peekOnLine (b := []) (by simp) (by decide) ?_
  refine .no (by decide) (.no (by decide) (.retreat ?_))
  refine .peekOnLine (b := []) (by simp) (by decide) ?_
  exact .no (by decide) (.yes rfl (.accept (.skip rfl (valueOfKey_found (hvalue _) hu))))

/-- Behind its path, a key ends with the line. -/
theorem keyBehindPath_lineEnd (hu : EndsLine u) :
    Ahead F p [] u (keyBehindPath value (Key.plain range k none))
      (Arrives F u fun key => key = Key.plain range k none) :=
  .peekLineEnd hu (.done rfl)

/-- A key is read from its parts, if they name something. -/
theorem key_parts {R : Key (Span π) → Prop} (hnamed : ∀ key, R key → key.isNamed = true)
    (hparts : ∀ key, key = Key.empty ⟨F.mark p.length, F.mark p.length⟩ →
      Ahead F p [] w (keyParts value key) (Arrives F u R)) :
    Ahead F p [] w (key value)
      (Arrives F u fun r => ∃ key range, R key ∧ r = some { key with range }) := by
  refine .here (.call (hparts _ rfl) fun key q hkey => .here (.yes (hnamed key hkey) ?_))
  exact .done ⟨key, _, hkey, rfl⟩

/-- The parts of a key that starts with a path. -/
theorem keyParts_path {c : Char} {R : KeyPath (Span π) → Prop} {S : Key (Span π) → Prop}
    (hc : c ≠ '&' ∧ c ≠ '(')
    (hpath : ∀ p, Ahead F p [] (c :: w) path (Arrives F v fun r => ∃ k, r = some k ∧ R k))
    (hbehind : ∀ k p, R k → Ahead F p [] v (keyBehindPath value (Key.plain range k none))
      (Arrives F u S)) :
    Ahead F p [] (c :: w) (keyParts value (.empty range)) (Arrives F u S) := by
  refine .peek (.no hc.1 (.retreat (.peek (.no hc.2 (.retreat (.call (hpath p) ?_))))))
  intro r q hr
  obtain ⟨k, rfl, hk⟩ := hr
  exact hbehind k q hk

/-- A key is read from its path and from what is behind that. -/
theorem key_found {c : Char} {R : KeyPath (Span π) → Prop} {S : Option (Value (Span π)) → Prop}
    (hc : c ≠ '&' ∧ c ≠ '(')
    (hpath : ∀ p, Ahead F p [] (c :: w) path (Arrives F v fun r => ∃ k, r = some k ∧ R k))
    (hbehind : ∀ range k p, R k → Ahead F p [] v (keyBehindPath value (Key.plain range k none))
      (Arrives F u fun key => ∃ x, S x ∧ key = Key.plain range k x)) :
    Ahead F p [] (c :: w) (key value)
      (Arrives F u fun r => ∃ range k x, R k ∧ S x ∧ r = some (Key.plain range k x)) := by
  have hnamed : ∀ key : Key (Span π), (∃ range k x, R k ∧ S x ∧ key = Key.plain range k x) →
      key.isNamed = true := by
    rintro key ⟨range, k, x, -, -, rfl⟩
    rfl
  refine .mono (key_parts hnamed fun key hkey => ?_) fun r h => ?_
  · subst hkey
    refine keyParts_path hc hpath fun k q hk => .mono (hbehind _ k q hk) fun key h => ?_
    obtain ⟨x, hx, rfl⟩ := h
    exact ⟨_, k, x, hk, hx, rfl⟩
  · obtain ⟨key, range, ⟨_, k, x, hk, hx, rfl⟩, rfl⟩ := h
    exact ⟨range, k, x, hk, hx, rfl⟩

end

/-! ## Entries and maps -/

/-- A character that starts no remark is put back. -/
theorem nodeStart_node {c : Char} {β : Type} {f : Start (Span π) → Grammar π β}
    {Q : β → State π → Prop} (hvisible : isBlank c = false) (hhash : c ≠ '#') (hpoint : c ≠ '.')
    (hquote : c = '"' → ¬['"', '"'] <+: u) (h : Ahead F p [] (c :: u) (f .node) Q) :
    Ahead F (c :: p) [] u (nodeStart c >>= f) Q := by
  have hstart : Ahead F (c :: p) [] u (startNode c >>= f) Q := by
    rw [startNode, bind_assoc]
    exact .putBack (ne_newline_of_visible hvisible) h
  rw [nodeStart, if_neg hhash]
  by_cases hc : c = '"'
  · rw [if_pos hc, bind_assoc]
    exact .acceptOther (hquote hc) hstart
  · rw [if_neg hc, if_neg hpoint]
    exact hstart

variable {value : Grammar π (Option (Value (Span π)))} [DecidableEq π]

/-- An entry of a map is read from its key, with the end of its line in sight. -/
theorem mapStep_found {opened : Option π} {gathered : List (Entry (Span π))} {c : Char}
    {R : Key (Span π) → Prop} (hb : ∀ x ∈ b, isBlank x = true) (hvisible : isBlank c = false)
    (hc : c ∉ [';', '}', '#', '.']) (hquote : c = '"' → ¬['"', '"'] <+: w)
    (hkey : ∀ p, Ahead F p [] (c :: w) (key value) (Arrives F u fun r => ∃ k, r = some k ∧ R k))
    (hu : EndsLine u) :
    Ahead F p [] (b ++ c :: w) (mapStep value opened gathered)
      (Arrives F u fun next => ∃ entries, next = .again entries ∧
        ∃ k, R k ∧ entries = .key k :: gathered) := by
  simp only [List.mem_cons, List.not_mem_nil, or_false, not_or] at hc
  obtain ⟨hsemicolon, hclosing, hhash, hpoint⟩ := hc
  have hentry : Ahead F (c :: (b.reverse ++ p)) [] w (entry value c)
      (Arrives F u fun r => ∃ k, r = some (.key k) ∧ R k) := by
    refine nodeStart_node hvisible hhash hpoint hquote (.call (hkey _) fun r q hr => ?_)
    obtain ⟨k, rfl, hk⟩ := hr
    exact .done ⟨k, rfl, hk⟩
  refine .readVisible hb hvisible (.no hsemicolon (.no hclosing (.call hentry fun r q hr => ?_)))
  obtain ⟨k, rfl, hk⟩ := hr
  refine .call (trailingText_none (.inl hu)) fun _ q _ => .done ?_
  exact ⟨_, rfl, k, hk, rfl⟩

/-- A closing brace behind blanks ends the map. -/
theorem mapStep_closing {start : π} {gathered : List (Entry (Span π))}
    (hb : ∀ x ∈ b, isBlank x = true) :
    Ahead F p [] (b ++ '}' :: u) (mapStep value (some start) gathered)
      (Arrives F u fun next => ∃ entries, next = .stop entries ∧ entries = gathered) := by
  refine .readVisible hb (by decide) ?_
  exact .no (by decide) (.yes rfl (.yes rfl (.done ⟨gathered, rfl, rfl⟩)))

/-- The map of a file ends with the source. -/
theorem mapStep_end {gathered : List (Entry (Span π))} (hu : ∀ x ∈ u, isBlank x = true) :
    Ahead F p [] u (mapStep value none gathered)
      (Arrives F [] fun next => ∃ entries, next = .stop entries ∧ entries = gathered) :=
  .readVisibleEnd hu (.done ⟨gathered, rfl, rfl⟩)

/-- A map is read from its entries, if it is not nested too deep. -/
theorem map_found {R : List (Entry (Span π)) → Prop} (hgroup : F.inGroup = false)
    (hdepth : F.depth < F.limit)
    (hentries : ∀ start, Ahead F.deeper ('{' :: p) [] v (repeating (mapStep value (some start)) [])
      (Arrives F.deeper u fun entries => R entries.reverse)) :
    Ahead F ('{' :: p) [] v (map value) (Arrives F u fun m => R m.entries) :=
  .outsideGroup hgroup (.placeOf (by decide) (.belowLimit hdepth
    (.nested (hentries _) fun _ _ h => .here (.done h))))

/-- The map of a file is read from its entries. -/
theorem fileMap_found {R : List (Entry (Span π)) → Prop} (hgroup : F.inGroup = false)
    (hentries : Ahead F p [] v (repeating (mapStep value none) [])
      (Arrives F [] fun entries => R entries.reverse)) :
    Ahead F p [] v (fileMap value) (Arrives F [] fun m => R m.entries) :=
  .outsideGroup hgroup (.here (.call hentries fun _ _ h => .here (.done h)))

/-- Behind blanks, a brace starts a value that is a map. -/
theorem valueWithin_brace {room : Nat} {R : Map (Span π) → Prop} (hgroup : F.inGroup = false)
    (hb : LineBlanks b)
    (hmap : ∀ p, Ahead F ('{' :: p) [] v (map (valueWithin room)) (Arrives F u R)) :
    Ahead F p [] (b ++ '{' :: v) (valueWithin (room + 1))
      (Arrives F u fun r => ∃ m, r = some (.map m) ∧ R m) := by
  refine .outsideGroup hgroup (.peekOnLine hb (by decide) (.accept ?_))
  refine .no (by decide) (.yes rfl (.call (hmap _) fun m q hm => ?_))
  exact .done ⟨m, rfl, hm⟩

end Grammar

/-! ## Whole texts -/

/-- Before anything is read, the whole text is ahead. -/
theorem State.ofSource_stands {π : Type} {meter : Meter π} (lawful : meter.Lawful)
    (source : List Delivery) (limit : Nat) :
    (State.ofSource meter source limit).Stands (.ofSource meter lawful source limit) [] []
      (delivered source) :=
  ⟨State.ofSource_at lawful source limit, rfl, rfl⟩

/-- The frame of a run over a text that is held in memory. -/
def Frame.ofText (options : Options) (text : List Char) : Frame Position :=
  .ofSource options.counting.meter options.counting.meter_lawful (deliveries text) options.maxDepth

/-- Nothing is wrong with a text that is read to its end as the map of a file. -/
theorem parse_ahead {R : Map (Span Position) → Prop} (label : String) (options : Options)
    {text : List Char}
    (h : Grammar.Ahead (.ofText options text) [] [] text (Grammar.fileMap Grammar.value)
      (Grammar.Arrives (.ofText options text) [] R)) :
    let output := parse label (deliveries text) options
    output.diagnostics = [] ∧ output.fatal = none ∧
      ∃ m, R m ∧ output.map = m.mapMarks (Span.toRange label) := by
  have hstart := State.ofSource_stands options.counting.meter_lawful (deliveries text)
    options.maxDepth
  rw [delivered_deliveries] at hstart
  obtain ⟨hmap, q, hend⟩ := h _ hstart
  refine ⟨?_, ?_, _, hmap, rfl⟩
  · show List.map _ (List.reverse (readFile _ _ _).2.problems) = []
    rw [readFile, hend.problems]
    rfl
  · rw [parse_fatal, failureOf_deliveries]
    rfl

/-- A part that is read of a whole text is accepted. -/
theorem parsePart_ahead {α : Type} {grammar : Grammar Position (Option α)} {R : α → Prop}
    (empty : Cause) {text : String}
    (h : Grammar.Ahead (.ofText {} text.toList) [] [] text.toList grammar
      (Grammar.Arrives (.ofText {} text.toList) [] fun r => ∃ a, r = some a ∧ R a)) :
    ∃ a, R a ∧ parsePart grammar empty text = .ok a := by
  have hstart := State.ofSource_stands Counting.bytes.meter_lawful (deliveries text.toList)
    defaultDepth
  rw [delivered_deliveries] at hstart
  obtain ⟨⟨a, hpart, ha⟩, q, hend⟩ := h _ hstart
  refine ⟨a, ha, ?_⟩
  simp only [parsePart, hpart, State.diagnostics, hend.problems, List.reverse_nil, List.map_nil]

end Diagram
