import Diagram.Proofs.Ahead.Node
import Diagram.Proofs.Clean.Basic
import Diagram.Proofs.Keys.Parse
import Diagram.Proofs.Twin.Handover

/-!
A key alone and a key in a file. A key alone is read from a fresh reader; in a file, its first
character has been read and put back, and more may have been looked at. Two runs that stand at the
same place with nothing wrong so far read the same key, however their readers have come there.
-/
namespace Diagram

variable {π : Type}

/-! ## Two runs from the same place -/

/-- Two runs over the same text in indexes, as long as nothing is wrong with it. How many characters
they have asked for may differ. -/
def Pairing.standing (F : Frame Nat) (h : F.meter = .index) : Pairing Nat where
  first := F
  second := F
  base := []
  tail := []
  shift := 0
  voids _ := True
  extra := []
  meter := h
  text := (List.append_nil _).symm
  newline := fun _ h => nomatch h
  voids_of_tail h := absurd rfl h
  blocks := .inl rfl
  depth := rfl
  inGroup := rfl

theorem Pairing.standing_place (F : Frame Nat) (h : F.meter = .index) :
    (Pairing.standing F h).place = F.mark := by
  funext i
  show F.mark (0 + min i F.text.length) = F.mark i
  rw [Nat.zero_add, Tape.mark, Tape.mark, ← List.take_eq_take_min]

theorem Twin.standing {F : Frame Nat} (h : F.meter = .index) {p : List Char} {s t : State Nat}
    (hs : s.At F p []) (ht : t.At F p []) (hs₀ : s.problems = []) (ht₀ : t.problems = []) :
    Twin (.standing F h) p [] s t where
  first := hs
  second := (List.append_nil p).symm ▸ ht
  problems := by rw [hs₀, ht₀]; rfl
  onsets := by simp [hs₀]
  clean _ := hs₀
  counts := ⟨fun ⟨_, hvoid⟩ => absurd trivial hvoid, fun h => absurd rfl h⟩

namespace Grammar

/-- Where both runs read the same values, they read the same keys. -/
theorem key_plain {K : Pairing π} {value₁ : Grammar Nat (Option (Value (Span Nat)))}
    {value₂ : Grammar π (Option (Value (Span π)))} (hgroup : K.first.inGroup = false)
    (hvalue : ValueTwins (.plain K.place) K value₁ value₂) (p : List Char) :
    Alike K (Twin K p []) (key value₁) (key value₂) (fun _ => Stranded K)
      (Meets K (Option.map (Key.mapMarks (Span.map K.place)))) := by
  have h := key_alike hgroup hvalue p
  rw [Rendering.plain_key] at h
  exact h.bare fun k => Rendering.plain_keyNotes? _ k

/-- With `p` consumed and nothing wrong so far, the key `k` is read and nothing is wrong with it. -/
def KeyReadAt [DecidableEq π] (F : Frame π) (p : List Char) (k : Key (Span π)) : Prop :=
  ∃ s, s.At F p [] ∧ (key value s).1 = some k ∧ (key value s).2.problems = []

/-- **Standing**: the key that is read at a place is read by every run that comes there. -/
theorem KeyReadAt.standing {F : Frame Nat} (hmeter : F.meter = .index) (hgroup : F.inGroup = false)
    {p : List Char} {k : Key (Span Nat)} (h : KeyReadAt F p k) {t : State Nat} (ht : t.At F p [])
    (ht₀ : t.problems = []) :
    (key value t).1 = some (k.mapMarks (Span.map F.mark)) ∧ (key value t).2.problems = [] := by
  obtain ⟨s, hs, hk, hclean⟩ := h
  have hs₀ := problems_nil (key value) hclean
  have hvalue := value_twins (K := .standing F hmeter) hgroup ⟨Nat.le_refl _, .inl rfl⟩
  rcases key_plain hgroup hvalue p s t (.standing hmeter hs ht hs₀ ht₀) with hastray | hmeets
  · -- nothing is wrong in the first run, and nothing comes behind its text
    rcases hastray with ⟨x, hx, -⟩ | ⟨htail, -⟩
    · rw [hclean] at hx
      cases hx
    · exact absurd rfl htail
  · obtain ⟨hkey, q, htwin⟩ := hmeets
    rw [Pairing.standing_place] at hkey
    refine ⟨by rw [hkey, hk]; rfl, ?_⟩
    rw [htwin.sameProblems rfl, hclean, List.map_nil]

/-! ## A key as an entry of a file -/

section

variable [DecidableEq π] {F : Frame π}

/-- A key starts where it is read. -/
theorem KeyReadAt.start {p : List Char} {k : Key (Span π)} (h : KeyReadAt F p k) :
    k.range.start = F.mark p.length := by
  obtain ⟨s, hs, hk, -⟩ := h
  have hstart : Ensures (State.At F p []) (key value) fun r _ =>
      ∀ x ∈ r, x.range.start = F.mark p.length := by
    refine .here (.bind (R := fun _ _ => True) (fun _ _ => trivial) fun key => ?_)
    refine .bind (R := fun _ _ => True) (fun _ _ => trivial) fun stop => ?_
    refine .ite (fun _ => ?_) fun _ => ?_
    · refine .pure fun _ _ x hx => ?_
      obtain rfl := Option.some.inj hx
      rfl
    · exact .pure fun _ _ x hx => nomatch hx
  exact hstart s hs k hk

/-- An entry that is a key has been read at the character it starts with. -/
theorem entry_readsKey {c : Char} (hc : isBlank c = false) (p : List Char) :
    Ensures (State.At F (c :: p) []) (entry value c)
      (IfClean fun e _ => ∀ k, e = some (.key k) → KeyReadAt F p k) := by
  refine .nodeStart hc (fun r q _ _ => .pure fun s _ _ k hk => ?_) fun _ => ?_
  · obtain ⟨x, -, hx⟩ := Option.map_eq_some_iff.mp hk
    cases x <;> cases hx
  · intro s hs hclean k hk
    obtain ⟨x, hx, hkey⟩ := Option.map_eq_some_iff.mp hk
    obtain rfl := Entry.key.inj hkey
    exact ⟨s, hs, hx, hclean⟩

/-- If nothing is wrong, all the keys gathered have been read somewhere. -/
def KeysRead (F : Frame π) (entries : List (Entry (Span π))) (problems : List (Problem π)) : Prop :=
  problems = [] → ∀ k, .key k ∈ entries → ∃ p, KeyReadAt F p k

theorem KeysRead.lasting (entries : List (Entry (Span π))) :
    Lasting fun problems => KeysRead F entries problems := by
  intro xs ys hsuffix h hclean
  subst hclean
  exact h (List.suffix_nil.mp hsuffix)

/-- What is gathered from a line is its entry. -/
theorem entryLine_gathered (entries : List (Entry (Span π))) (c : Char) (s : State π) :
    (entryLine value entries c s).1.gathered = (entry value c s).1.toList ++ entries := by
  rw [entryLine, bind_apply]
  cases (entry value c s).1 with
  | none => rfl
  | some e => cases e <;> rfl

theorem entryLine_keysRead (entries : List (Entry (Span π))) {c : Char} (hc : isBlank c = false)
    (p : List Char) :
    Ensures (State.At F (c :: p) []) (entryLine value entries c) fun next s =>
      KeysRead F entries s.problems → KeysRead F next.gathered s.problems := by
  intro s hs hentries hclean k hk
  rw [entryLine_gathered, List.mem_append, Option.mem_toList] at hk
  rcases hk with hnew | hold
  · have hentry : (entry value c s).2.problems = [] := by
      rw [entryLine] at hclean
      exact problems_nil _ hclean
    exact ⟨p, entry_readsKey hc p s hs hentry k hnew⟩
  · exact hentries hclean k hold

theorem mapStep_keysRead (opened : Option π) (entries : List (Entry (Span π))) (p : List Char) :
    Ensures (State.At F p []) (mapStep value opened entries) fun next s =>
      KeysRead F entries s.problems → KeysRead F next.gathered s.problems := by
  refine .readVisible (fun _ => ?_) fun b c hc => .ite (fun _ => .pure fun _ _ h => h) fun _ =>
    .ite (fun _ => ?_) fun _ => entryLine_keysRead entries hc (b ++ p)
  · exact .bind (R := fun _ _ => True) (fun _ _ => trivial) fun _ => .pure fun _ _ h => h
  · refine .ite (fun _ => .pure fun _ _ h => h) fun _ => ?_
    exact .bind (R := fun _ _ => True) (fun _ _ => trivial) fun _ => .pure fun _ _ h => h

/-- The keys of a file with which nothing is wrong have been read somewhere. -/
theorem entries_keysRead (hgroup : F.inGroup = false) (opened : Option π) (p : List Char) :
    Ensures (State.At F p []) (repeating (mapStep value opened) []) fun entries s =>
      KeysRead F entries s.problems :=
  repeating_lasting (J := KeysRead F) KeysRead.lasting (I := EntriesWithin F p.length)
    (fun _ _ h => mapStep_reads hgroup (value_reads hgroup) opened h)
    (fun entries q _ => mapStep_keysRead opened entries q) (Nat.le_refl _)
    fun _ _ _ hk => nomatch hk

/-- Entries that have been gathered stay the first. -/
theorem mapStep_suffix (opened : Option π) (entries : List (Entry (Span π))) :
    Leaves (mapStep value opened entries) fun next _ => entries <:+ next.gathered := by
  refine .skip fun next => ?_
  cases next with
  | none => exact .skip fun _ => .pure fun _ => List.suffix_rfl
  | some c =>
    refine .ite (fun _ => .pure fun _ => List.suffix_rfl) fun _ => .ite (fun _ => ?_) fun _ => ?_
    · refine .ite (fun _ => .pure fun _ => List.suffix_rfl) fun _ => ?_
      exact .skip fun _ => .pure fun _ => List.suffix_rfl
    · intro s
      rw [entryLine_gathered]
      exact List.suffix_append _ entries

/-- The entry that the first step reads is the first of the file. -/
theorem entries_first {s : State π} {e : Entry (Span π)}
    (h : (mapStep value none [] s).1 = .again [e]) :
    (repeating (mapStep value none) [] s).1.reverse.head? = some e := by
  have hsuffix : [e] <:+ (repeating (mapStep value none) [] s).1 := by
    rw [repeating_eq]
    by_cases hleft : (mapStep value none [] s).2.reader.left < s.reader.left
    · rw [repeatWithin_again h hleft]
      exact Leaves.repeatWithin (J := fun entries _ => [e] <:+ entries) (fun _ _ _ _ h => h)
        (fun entries s h => h.trans (mapStep_suffix none entries s)) _ List.suffix_rfl
    · simp [repeatWithin_stalled h hleft]
  obtain ⟨later, hlater⟩ := hsuffix
  rw [← hlater, List.reverse_append]
  rfl

end

/-- Where there is no text, there is no key. -/
theorem key_empty [DecidableEq π] {F : Frame π} {p : List Char} :
    Ahead F p [] [] (key value) (Arrives F [] fun r => r = none) := by
  refine .here (.call (.peekEnd (.done rfl)) fun key q hkey => .here (.no ?_ (.done rfl)))
  subst hkey
  simp [Key.isNamed, Key.empty]

/-- A key that is read from the start of a text starts with a character that may start a key. -/
theorem KeyReadAt.first [DecidableEq π] {F : Frame π} {k : Key (Span π)} (h : KeyReadAt F [] k) :
    ∃ c w, F.text = c :: w ∧ c ∉ namelessCharacters := by
  obtain ⟨s, hs, hk, hclean⟩ := h
  match htext : F.text with
  | [] =>
    have hunread : s.reader.unread = [] := by
      have h := hs.reader.text
      rw [htext] at h
      simpa using h
    have hnone := (key_empty s ⟨hs, hunread, problems_nil (key value) hclean⟩).1
    rw [hk] at hnone
    cases hnone
  | c :: w =>
    refine ⟨c, w, rfl, fun hc => ?_⟩
    have hnone := (key_nameless hc (by simp [htext]) value s hs).1
    rw [hk] at hnone
    cases hnone

/-- A key that is read from the start of a text is the first entry of a file. -/
theorem mapStep_standing {F : Frame Nat} (hmeter : F.meter = .index) (hgroup : F.inGroup = false)
    {k : Key (Span Nat)} (h : KeyReadAt F [] k)
    (hvisible : ∀ c ∈ F.text.head?, isBlank c = false) (hquotes : ¬['"', '"', '"'] <+: F.text) :
    Ahead F [] [] F.text (mapStep value none []) fun next _ =>
      next = .again [.key (k.mapMarks (Span.map F.mark))] := by
  obtain ⟨c, w, htext, hc⟩ := h.first
  rw [htext] at hvisible hquotes ⊢
  simp only [namelessCharacters, List.mem_cons, List.not_mem_nil, or_false, not_or] at hc
  obtain ⟨hpoint, hsemicolon, hhash, -, hclosing⟩ := hc
  have hquote : c = '"' → ¬['"', '"'] <+: w := by
    rintro rfl hprefix
    exact hquotes (List.prefix_cons_inj '"' |>.mpr hprefix)
  refine .readVisible (b := []) (by simp) (hvisible c rfl) (.no hsemicolon (.no hclosing ?_))
  rw [entryLine, entry, bind_assoc]
  refine nodeStart_node (hvisible c rfl) hhash hpoint hquote fun t ht => ?_
  obtain ⟨hkey, -⟩ := h.standing hmeter hgroup ht.stands ht.problems
  rw [bind_assoc, bind_apply, hkey]
  rfl

end Grammar

/-! ## A part of a text alone -/

/-- A part is accepted if it is read and nothing is wrong with it. -/
theorem parsePart_eq_ok {α : Type} {grammar : Grammar Position (Option α)} {empty : Cause}
    {text : String} {a : α} :
    let run := grammar (.ofSource Counting.bytes.meter (deliveries text.toList) defaultDepth)
    parsePart grammar empty text = .ok a ↔ run.1 = some a ∧ run.2.problems = [] := by
  intro run
  have hclean : run.2.diagnostics "" .bytes = [] ↔ run.2.problems = [] := by
    simp [State.diagnostics]
  rw [parsePart, ← hclean]
  cases hdiagnostics : run.2.diagnostics "" .bytes <;> cases hpart : run.1 <;>
    simp [run] at hdiagnostics hpart <;> simp [hdiagnostics, hpart]

/-- The frame of a run in indexes over a text. -/
def Frame.ofIndexes (text : List Char) : Frame Nat :=
  .ofSource .index Meter.index_lawful (deliveries text) defaultDepth

theorem Frame.ofIndexes_text (text : List Char) : (Frame.ofIndexes text).text = text :=
  delivered_deliveries text

/-- A place of a run in indexes stands behind as much text as its index. -/
theorem Frame.take_mark (text : List Char) (i : Nat) :
    text.take ((Frame.ofIndexes text).mark i) = text.take i := by
  show text.take (Meter.index.after ((Frame.ofIndexes text).text.take i)) = text.take i
  rw [Frame.ofIndexes_text, Meter.index_after, List.length_take, ← List.take_eq_take_min]

theorem Span.between_mark (label : String) (counting : Counting) (text : List Char) :
    (fun span => Span.between label counting text (span.map (Frame.ofIndexes text).mark)) =
      Span.between label counting text := by
  funext span
  simp only [Span.between, rangeBetween, Span.map, Frame.take_mark]

/-- Only at the start of a text does a key start in its first line and column. -/
theorem Grammar.KeyReadAt.origin {text p : List Char} {k : Key (Span Nat)}
    (h : KeyReadAt (.ofIndexes text) p k) (label : String) (counting : Counting)
    (hstart : (Span.between label counting text k.range).start = Position.start) : p = [] := by
  have hle : p.length ≤ text.length := by
    obtain ⟨s, hs, -⟩ := h
    have hlength := hs.reader.length_le
    rw [Frame.ofIndexes_text] at hlength
    omega
  replace hstart : Position.after counting (text.take k.range.start) = Position.start := hstart
  rw [h.start, Frame.take_mark] at hstart
  by_contra hp
  apply Position.after_take_ne_origin counting (List.length_pos_iff.mpr hp) hle
  simp [hstart, Position.start]

/-- A key is read from the start of a text in bytes as it is read in indexes. -/
theorem key_counted (text : List Char) :
    let bytes := Grammar.key Grammar.value
      (.ofSource Counting.bytes.meter (deliveries text) defaultDepth)
    let indexes := Grammar.key Grammar.value (.ofSource .index (deliveries text) defaultDepth)
    bytes.1.map (Key.mapMarks (Span.toRange "")) =
        indexes.1.map (Key.mapMarks (Span.between "" .bytes text)) ∧
      (bytes.2.problems = [] ↔ indexes.2.problems = []) := by
  intro bytes indexes
  let K := Pairing.counted .bytes (rfl : delivered (deliveries text) = _) defaultDepth
  have halike := Grammar.key_plain (K := K) rfl
    (Grammar.value_twins rfl (Pairing.ofSources_limits .bytes [] rfl defaultDepth)) [] _ _
    (Twin.counted .bytes rfl defaultDepth)
  obtain ⟨hkey, q, htwin⟩ := halike.resolve_left (Pairing.not_astray rfl fun _ h => h)
  refine ⟨?_, ?_⟩
  · have hranges : (fun span => Span.toRange "" (Span.map K.place span)) =
        Span.between "" .bytes text := by
      rw [Span.toRange_counted, delivered_deliveries]
    show Option.map _ (Grammar.key Grammar.value _).1 = _
    rw [hkey, Option.map_map]
    congr 1
    funext key
    rw [Function.comp, Key.mapMarks_mapMarks, hranges]
  · have hproblems : bytes.2.problems = indexes.2.problems.map (Problem.map K.place) :=
      htwin.sameProblems rfl
    rw [hproblems, List.map_eq_nil_iff]

/-- The key of a text is the key that is read in indexes from its start, with its ranges. -/
theorem parseKey_eq_ok {text : String} {k : Key Range} :
    parseKey text = .ok k ↔ ∃ k', Grammar.KeyReadAt (.ofIndexes text.toList) [] k' ∧
      k'.mapMarks (Span.between "" .bytes text.toList) = k := by
  obtain ⟨hkey, hproblems⟩ := key_counted text.toList
  have hstands := State.ofSource_at Meter.index_lawful (deliveries text.toList) defaultDepth
  have hbytes : parseKey text = .ok k ↔
      ∃ key, parsePart (Grammar.key Grammar.value) .emptyKey text = .ok key ∧
        key.mapMarks (Span.toRange "") = k := by
    rw [parseKey]
    cases parsePart (Grammar.key Grammar.value) .emptyKey text with
    | error e => simp [bind, Except.bind]
    | ok key => simp [bind, Except.bind, pure, Except.pure]
  rw [hbytes]
  constructor
  · rintro ⟨key, hok, rfl⟩
    obtain ⟨hread, hclean⟩ := parsePart_eq_ok.mp hok
    rw [hread] at hkey
    obtain ⟨k', hk', hranges⟩ := Option.map_eq_some_iff.mp hkey.symm
    exact ⟨k', ⟨_, hstands, hk', hproblems.mp hclean⟩, hranges⟩
  · rintro ⟨k', hread, rfl⟩
    obtain ⟨hk', hclean⟩ := hread.standing rfl rfl hstands rfl
    rw [hk'] at hkey
    obtain ⟨key, hfound, hranges⟩ := Option.map_eq_some_iff.mp hkey
    refine ⟨key, parsePart_eq_ok.mpr ⟨hfound, hproblems.mpr hclean⟩, ?_⟩
    rw [hranges, Key.mapMarks_mapMarks, Span.between_mark]

/-- **A key alone and in a file**: a key that is read alone is the first entry of the file, if the
text starts with a visible character but not with a block comment. If nothing is wrong with a file,
a key at its start is also read alone. -/
theorem parseKey_agrees (text : String) :
    ((∀ c ∈ text.toList.head?, isBlank c = false) → ¬"\"\"\"".toList <+: text.toList →
      ∀ k, parseKey text = .ok k →
        (parseText "" text {}).map.entries.head? = some (.key k)) ∧
    ((parseText "" text {}).diagnostics = [] → ∀ k,
      (parseText "" text {}).map.entries.head? = some (.key k) → k.range.start = Position.start →
        parseKey text = .ok k) := by
  have hentries := parse_entries_eq "" (deliveries text.toList) {}
  rw [delivered_deliveries] at hentries
  refine ⟨fun hvisible hquotes k hk => ?_, fun hclean k hfirst hstart => ?_⟩
  · obtain ⟨k', hread, rfl⟩ := parseKey_eq_ok.mp hk
    rw [← Frame.ofIndexes_text text.toList] at hvisible hquotes
    have hstep := Grammar.mapStep_standing rfl rfl hread hvisible hquotes _
      (State.ofSource_stands Meter.index_lawful (deliveries text.toList) defaultDepth)
    have hhead := congrArg (Option.map (Entry.mapMarks (Span.between "" .bytes text.toList)))
      (Grammar.entries_first hstep)
    rw [← List.head?_map] at hhead
    show (parse "" (deliveries text.toList) {}).map.entries.head? = _
    rw [hentries]
    refine hhead.trans ?_
    rw [Option.map_some, Entry.mapMarks, Key.mapMarks_mapMarks, Span.between_mark]
  · replace hclean : (parse "" (deliveries text.toList) {}).diagnostics = [] := hclean
    have hproblems := problems_of_clean hclean
    have hkeys := Grammar.entries_keysRead rfl none [] _
      (State.ofSource_at Meter.index_lawful (deliveries text.toList) defaultDepth) hproblems
    replace hfirst :
        (parse "" (deliveries text.toList) {}).map.entries.head? = some (.key k) := hfirst
    rw [hentries, List.head?_map] at hfirst
    obtain ⟨e, he, hmarks⟩ := Option.map_eq_some_iff.mp hfirst
    cases e with
    | comment _ | blockComment _ | substitution _ => cases hmarks
    | key k' =>
      obtain rfl := Entry.key.inj hmarks
      obtain ⟨p, hread⟩ := hkeys k' (List.mem_reverse.mp (List.mem_of_mem_head? he))
      rw [Key.mapMarks_eq] at hstart
      -- nothing has been read in front of a key that starts in the first line and column
      obtain rfl : p = [] := hread.origin "" .bytes hstart
      exact parseKey_eq_ok.mpr ⟨k', hread, rfl⟩

/-- A key with an edge in front of a stray brace, and the first of two keys in a file. -/
theorem parseKey_agrees_edge :
    (∃ k, parseKey "a -> b: x \x7d" = .ok k ∧
      (parseText "" "a -> b: x \x7d" {}).map.entries.head? = some (.key k)) ∧
    ∃ k, (parseText "" "a: x; b" {}).diagnostics = [] ∧
      (parseText "" "a: x; b" {}).map.entries.head? = some (.key k) ∧
      parseKey "a: x; b" = .ok k := by
  constructor
  · have hread : (parseKey "a -> b: x \x7d").isOk = true := by decide +kernel
    cases hkey : parseKey "a -> b: x \x7d" with
    | error _ =>
      rw [hkey] at hread
      cases hread
    | ok k =>
      have hvisible : ∀ c ∈ "a -> b: x \x7d".toList.head?, isBlank c = false :=
        fun _ hc => Option.some.inj hc ▸ rfl
      exact ⟨k, rfl, (parseKey_agrees "a -> b: x \x7d").1 hvisible (by decide) k hkey⟩
  · have hclean : (parseText "" "a: x; b" {}).diagnostics = [] := by decide +kernel
    have hfirst : ((parseText "" "a: x; b" {}).map.entries.head?.any fun e =>
        e.typeName == "map key" && e.range.start == Position.start) = true := by
      decide +kernel
    obtain ⟨e, he, hchecks⟩ := (Option.any_eq_true _ _).mp hfirst
    obtain ⟨hname, hstart⟩ := Bool.and_eq_true_iff.mp hchecks
    cases e with
    | comment _ | blockComment _ | substitution _ => cases hname
    | key k => exact ⟨k, hclean, he, (parseKey_agrees "a: x; b").2 hclean k he (eq_of_beq hstart)⟩

end Diagram
