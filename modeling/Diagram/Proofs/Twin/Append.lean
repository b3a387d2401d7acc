import Diagram.Proofs.Shift
import Diagram.Proofs.Twin.Handover

/-!
Two texts in two lines. The run over the first text and the run over both stay side by side up to
the end of the first; from the new line on, the run over both goes on beside the run over the second
text.
-/
namespace Diagram

/-! ## The first text and the second beside both -/

section

variable (counting : Counting) (a b : List Char) (limit : Nat)

/-- A run in plain indexes over the text `a`, and a run over it with `b` on the next line. -/
def Pairing.front : Pairing Position where
  first := .ofSource .index Meter.index_lawful (deliveries a) limit
  second := .ofSource counting.meter counting.meter_lawful (deliveries (a ++ '\n' :: b)) limit
  base := []
  tail := '\n' :: b
  shift := 0
  voids _ := True
  extra := []
  meter := Frame.ofFile_meter a limit
  text := by simp [Frame.ofSource, delivered_deliveries]
  newline := newline_head? b
  voids_of_tail _ _ := trivial
  blocks := .inl rfl
  depth := rfl
  inGroup := rfl

theorem Pairing.front_limits : (Pairing.front counting a b limit).Limits :=
  ⟨Nat.le_refl _, .inl rfl⟩

theorem delivered_behind :
    delivered (deliveries (a ++ '\n' :: b)) =
      ('\n' :: a.reverse).reverse ++ delivered (deliveries b) := by
  simp [delivered_deliveries]

/-- A run in plain indexes over the text `b`, and a run over it with `a` on the line before. -/
def Pairing.behind : Pairing Position :=
  .ofSources counting ('\n' :: a.reverse) (delivered_behind a b) limit

theorem Pairing.front_place (i : Nat) :
    (Pairing.front counting a b limit).place i = Position.after counting (a.take i) := by
  show counting.meter.after ((delivered (deliveries (a ++ '\n' :: b))).take
    (0 + min i (delivered (deliveries a)).length)) = _
  rw [delivered_deliveries, delivered_deliveries, Nat.zero_add,
    List.take_append_of_le_length (Nat.min_le_right _ _), ← List.take_eq_take_min]
  exact counting.meter_after _

theorem Pairing.behind_limits : (Pairing.behind counting a b limit).Limits :=
  ofSources_limits counting ('\n' :: a.reverse) (delivered_behind a b) limit

/-- The place of an index of the second text is its position there, shifted by the first line. -/
theorem Pairing.behind_place (i : Nat) :
    (Pairing.behind counting a b limit).place i =
      (Position.after counting (b.take i)).shift counting (a ++ ['\n']) := by
  have htake : (a ++ '\n' :: b).take (a.length + 1 + min i b.length) = a ++ '\n' :: b.take i := by
    rw [Nat.add_assoc, List.take_length_add_append, Nat.add_comm 1, List.take_succ_cons,
      ← List.take_eq_take_min]
  show counting.meter.after ((delivered (deliveries (a ++ '\n' :: b))).take
    (('\n' :: a.reverse).length + min i (delivered (deliveries b)).length)) = _
  rw [delivered_deliveries, delivered_deliveries, List.length_cons, List.length_reverse, htake]
  exact Position.after_append_line counting a (b.take i)

/-- The run over the first text and the new line may look at the first visible character behind. -/
theorem Pairing.front_bound {u v : List Char} {c : Char} (hu : ∀ x ∈ u, isBlank x = true)
    (hc : isBlank c = false) :
    (Pairing.front counting a (u ++ c :: v) limit).bound = a.length + (u.length + 1) + 1 := by
  have htail : ('\n' :: (u ++ c :: v)).takeWhile isBlank = '\n' :: u := by
    have hstop : (c :: v).takeWhile isBlank = [] := by simp [hc]
    rw [List.takeWhile_cons_of_pos (by decide), List.takeWhile_append_of_pos hu, hstop,
      List.append_nil]
  have htext : (Pairing.front counting a (u ++ c :: v) limit).first.text = a :=
    delivered_deliveries a
  rw [Pairing.bound, htext]
  show 0 + a.length + (('\n' :: (u ++ c :: v)).takeWhile isBlank).length + 1 = _
  rw [htail, List.length_cons, Nat.zero_add]

theorem Twin.front :
    Twin (.front counting a b limit) [] [] (.ofSource .index (deliveries a) limit)
      (.ofSource counting.meter (deliveries (a ++ '\n' :: b)) limit) where
  first := State.ofSource_at Meter.index_lawful _ limit
  second := State.ofSource_at counting.meter_lawful _ limit
  problems := rfl
  onsets := by simp [State.ofSource]
  clean _ := rfl
  counts := ⟨fun ⟨_, h⟩ => absurd trivial h, fun _ => Nat.zero_le _⟩

/-- The run over the second text has not begun, and the run over both has consumed `q` and has
nothing but blanks in front of the new line. -/
structure LineBreak (q : List Char) (s : State Nat) (t : State Position) : Prop where
  first : s = .ofSource .index (deliveries b) limit
  second : t.At (Pairing.behind counting a b limit).second q []
  length_le : q.length ≤ a.length
  blank : ∀ x ∈ a.drop q.length, isBlank x = true
  problems : t.problems = []
  count : t.reader.count ≤ (Pairing.front counting a b limit).bound

variable {counting a b limit} {q : List Char} {s : State Nat} {t : State Position}

namespace LineBreak

theorem start (h : LineBreak counting a b limit q s t) :
    s.At (Pairing.behind counting a b limit).first [] [] :=
  h.first ▸ State.ofSource_at Meter.index_lawful _ limit

theorem unread_first (h : LineBreak counting a b limit q s t) : s.reader.unread = b := by
  have hunread := h.start.reader.unread_eq
  exact hunread.trans (delivered_deliveries b)

theorem unread_second (h : LineBreak counting a b limit q s t) :
    t.reader.unread = a.drop q.length ++ '\n' :: b := by
  have hunread := h.second.reader.unread_eq
  have htext : (Pairing.behind counting a b limit).second.text = a ++ '\n' :: b :=
    delivered_deliveries _
  rw [hunread, htext, List.length_nil, Nat.add_zero, List.drop_append_of_le_length h.length_le]

/-- What is left in front of the new line makes up the first text with what has been consumed. -/
theorem consumed (h : LineBreak counting a b limit q s t) :
    (a.drop q.length).reverse ++ q = a.reverse := by
  have htext := h.second.reader.text
  have hwhole : (Pairing.behind counting a b limit).second.text = a ++ '\n' :: b :=
    delivered_deliveries _
  rw [h.unread_second, hwhole, List.reverse_nil, List.append_nil, ← List.append_assoc] at htext
  have hfront := congrArg List.reverse (List.append_cancel_right htext)
  simpa using hfront

/-- Both runs stand at the same place of the second text if the run over both has asked for no
more. -/
theorem twin {p : List Char} {r : Reader Nat} {r' : Reader Position}
    (h : LineBreak counting a b limit q s t)
    (hr : r.At (Pairing.behind counting a b limit).first.toTape p [])
    (hr' : r'.At (Pairing.behind counting a b limit).second.toTape (p ++ '\n' :: a.reverse) [])
    (hcount : r'.count = a.length + 1 + r.count) :
    Twin (.behind counting a b limit) p [] { s with reader := r } { t with reader := r' } := by
  have hs := h.start
  have hproblems : s.problems = [] := by
    rw [h.first]
    rfl
  refine ⟨hs.setReader hr, h.second.setReader hr', ?_, ?_, fun _ => hproblems, fun _ => ?_, ?_⟩
  · rw [hproblems]
    exact h.problems
  · simp [hproblems]
  · rw [hcount]
    simp [Pairing.behind, Pairing.ofSources]
  · exact fun hne => absurd rfl hne

/-- Blanks at the start of the second text go on with the blanks at the end of the first. -/
theorem blank_append (h : LineBreak counting a b limit q s t) {u : List Char}
    (hu : ∀ x ∈ u, isBlank x = true) : ∀ x ∈ a.drop q.length ++ '\n' :: u, isBlank x = true := by
  intro x hx
  rcases List.mem_append.mp hx with hx | hx
  · exact h.blank x hx
  · rcases List.mem_cons.mp hx with rfl | hx
    · rfl
    · exact hu x hx

/-- From the line break, both runs read over a second text in which nothing is visible. -/
theorem readVisible_missed (h : LineBreak counting a b limit q s t)
    (hb : ∀ x ∈ b, isBlank x = true) :
    ∃ r r', s.reader.readVisible = (none, r) ∧ t.reader.readVisible = (none, r') ∧
      Twin (.behind counting a b limit) b.reverse [] { s with reader := r }
        { t with reader := r' } := by
  have hsecond := h.unread_second
  have hlength := congrArg List.length h.consumed
  simp only [List.length_append, List.length_reverse] at hlength
  obtain ⟨r, hread, hr, hcount⟩ := h.start.reader.readVisible_none (h.unread_first.symm ▸ hb)
  obtain ⟨r', hread', hr', hcount'⟩ :=
    h.second.reader.readVisible_none (hsecond.symm ▸ h.blank_append hb)
  rw [h.unread_first, List.append_nil] at hr
  have hpast : t.reader.unread.reverse ++ q = b.reverse ++ '\n' :: a.reverse := by
    rw [hsecond, List.reverse_append, List.append_assoc, h.consumed]
    simp
  rw [hpast] at hr'
  refine ⟨r, r', hread, hread', h.twin hr hr' ?_⟩
  rw [hcount, hcount']
  simp [Pairing.behind, Pairing.ofSources, Frame.ofSource, delivered_deliveries]
  omega

/-- From the line break, both runs read the first visible character of the second text. -/
theorem readVisible_found (h : LineBreak counting a b limit q s t) {u v : List Char} {c : Char}
    (hb : b = u ++ c :: v) (hu : ∀ x ∈ u, isBlank x = true) (hc : isBlank c = false) :
    ∃ p r r', s.reader.readVisible = (some c, r) ∧ t.reader.readVisible = (some c, r') ∧
      Twin (.behind counting a b limit) (c :: p) [] { s with reader := r }
        { t with reader := r' } := by
  have hconsumed := h.consumed
  have hlength := congrArg List.length hconsumed
  simp only [List.length_append, List.length_reverse] at hlength
  obtain ⟨r, hread, hr, hcount⟩ :=
    h.start.reader.readVisible_some (h.unread_first.trans hb) hu hc
  have hunread : t.reader.unread = (a.drop q.length ++ '\n' :: u) ++ c :: v := by
    rw [h.unread_second, hb]
    simp
  obtain ⟨r', hread', hr', hcount'⟩ :=
    h.second.reader.readVisible_some hunread (h.blank_append hu) hc
  rw [List.append_nil] at hr
  have hpast : c :: ((a.drop q.length ++ '\n' :: u).reverse ++ q) =
      (c :: u.reverse) ++ '\n' :: a.reverse := by
    rw [List.reverse_append, List.append_assoc, hconsumed]
    simp
  rw [hpast] at hr'
  refine ⟨u.reverse, r, r', hread, hread', h.twin hr hr' ?_⟩
  have hstart : s.reader.count = 0 := by
    rw [h.first]
    rfl
  -- the run over both has looked no further than this character while it read the first text,
  -- so that here it asks for as much as a run that begins with the second
  have hbound := h.count
  rw [hb, Pairing.front_bound counting a limit hu hc] at hbound
  rw [hcount, hcount', hstart]
  simp
  omega

/-- From the line break, both runs read the same: the first visible character of the second text,
or nothing. -/
theorem readVisible (h : LineBreak counting a b limit q s t) :
    (∃ c p r r', isBlank c = false ∧ s.reader.readVisible = (some c, r) ∧
      t.reader.readVisible = (some c, r') ∧
      Twin (.behind counting a b limit) (c :: p) [] { s with reader := r }
        { t with reader := r' }) ∨
    ∃ r r', s.reader.readVisible = (none, r) ∧ t.reader.readVisible = (none, r') ∧
      Twin (.behind counting a b limit) b.reverse [] { s with reader := r }
        { t with reader := r' } := by
  rcases Reader.blank_or_visible b with hb | ⟨u, c, v, hb, hu, hc⟩
  · exact .inr (h.readVisible_missed hb)
  · obtain ⟨p, r, r', hread, hread', htwin⟩ := h.readVisible_found hb hu hc
    exact .inl ⟨c, p, r, r', hc, hread, hread', htwin⟩

end LineBreak

open Grammar

/-- The first entry behind the line break is read alike, or there is none. -/
theorem mapStep_behind (before : List (Entry (Span Position))) (q : List Char) :
    Alike (.behind counting a b limit) (LineBreak counting a b limit q) (mapStep value none [])
      (mapStep value none before) Never
      (Meets (.behind counting a b limit)
        (Next.map (mapEntries (.behind counting a b limit) before))) := by
  intro s t hs
  rcases hs.readVisible with ⟨c, p, r, r', hc, hread, hread', htwin⟩ | ⟨r, r', hread, hread', htwin⟩
  · rw [mapStep_visible value none [] hread, mapStep_visible value none before hread']
    have hboth : Alike (.behind counting a b limit) (Twin _ (c :: p) [])
        (mapStepFrom value none [] c) (mapStepFrom value none before c) (MapStrays _)
        (Meets _ (Next.map (mapEntries _ before))) :=
      mapStepFrom_alike rfl (value_twins rfl (Pairing.behind_limits counting a b limit))
        none [] hc p
    exact .inr ((hboth _ _ htwin).resolve_left (Pairing.not_astray rfl fun _ h => h))
  · rw [mapStep_blank value [] hread, mapStep_blank value before hread']
    exact .inr ⟨rfl, b.reverse, htwin⟩

/-- **Going on**: behind the line break, the map of a file is read as that of the second text,
behind the entries that have been read before. -/
theorem file_goesOn (before : List (Entry (Span Position))) {m n : Nat} (q : List Char)
    (hm : (Pairing.behind counting a b limit).first.budget ≤ m)
    (hn : (Pairing.behind counting a b limit).second.budget < n + 1 + q.length) :
    Alike (.behind counting a b limit) (LineBreak counting a b limit q)
      (repeatWithin (mapStep value none) (m + 1) [])
      (repeatWithin (mapStep value none) (n + 1) before)
      Never (Meets (.behind counting a b limit)
        (mapEntries (.behind counting a b limit) before)) := by
  -- only the first step starts at the line break; from the second on, the runs are twins
  intro s t hs
  have hlength := hs.length_le
  have hreads : ∀ entries p, EntriesWithin (Pairing.behind counting a b limit).first 0 entries
      p.length → Ensures (State.At (Pairing.behind counting a b limit).first p [])
        (mapStep value none entries) (Steps _ p.length (EntriesWithin _ 0) (EntriesWithin _ 0)) :=
    fun entries p h => mapStep_reads rfl (value_reads rfl) none h
  have hstep : ∀ entries p, EntriesWithin (Pairing.behind counting a b limit).first 0 entries
      p.length → Alike (.behind counting a b limit) (Twin _ p []) (mapStep value none entries)
        (mapStep value none (mapEntries _ before entries)) Never
        (Meets _ (Next.map (mapEntries _ before))) :=
    fun entries p _ => .of_tail rfl
      (mapStep_alike rfl (value_twins rfl (Pairing.behind_limits counting a b limit))
        (fun hne => absurd rfl hne) entries p)
  refine repeatWithin_succ_alike (K := .behind counting a b limit)
    (f := mapEntries (.behind counting a b limit) before) (fun _ _ h => ⟨h.start, h.second⟩) ?_
    (hreads [] [] (Nat.le_refl 0)) (mapStep_behind before q) (fun _ _ h => h.elim)
    (fun hne => absurd rfl hne) (by simpa using hm) (fun entries p hp hentries => ?_) s t hs
  · simp [Pairing.behind, Pairing.ofSources]
    omega
  · refine repeatWithin_alike hreads hstep (fun _ _ h => h.elim)
      (fun hne => absurd rfl hne) m n entries p hentries ?_ ?_
    · simp at hp
      omega
    · simp [Pairing.behind, Pairing.ofSources] at hp hn ⊢
      omega

/-! ## Both texts -/

variable (counting a b limit)

/-- What is read of `a` and `b` in two lines, where nothing is wrong with `a` and no comment goes
on, is what is read of `a` and then what is read of `b`. -/
theorem fileEntries_append (hclean : (fileEntries .index (deliveries a) limit).2.problems = [])
    (hcomment : (∀ c rest, (fileEntries .index (deliveries a) limit).1 ≠ .comment c :: rest) ∨
      firstVisible b ≠ some '#') :
    let front := fileEntries .index (deliveries a) limit
    let behind := fileEntries .index (deliveries b) limit
    let whole := fileEntries counting.meter (deliveries (a ++ '\n' :: b)) limit
    Meets (.behind counting a b limit)
      (mapEntries (.behind counting a b limit) (mapEntries (.front counting a b limit) [] front.1))
      behind.1 whole.1 behind.2 whole.2 := by
  have hfront := file_handsOver (K := .front counting a b limit) rfl
    (value_twins rfl (Pairing.front_limits counting a b limit)) (List.cons_ne_nil _ _) none
    ((State.ofSource .index (deliveries a) limit).reader.left + 1)
    ((State.ofSource counting.meter (deliveries (a ++ '\n' :: b)) limit).reader.left + 1) []
    [] (Nat.le_refl 0) (Nat.lt_succ_self _) (Nat.lt_succ_self _) _ _ (Twin.front counting a b limit)
  -- the run over `a` has noticed something, or a comment goes on, or `a` has been read to its end
  rcases hfront with (⟨x, hx, -⟩ | ⟨-, ⟨c, rest, hlast⟩, hhash⟩) |
    ⟨q, s₀, t₀, n, htwin, hproblems, hblank, hn, hrest⟩
  · have hnone : x ∈ (fileEntries .index (deliveries a) limit).2.problems := hx
    rw [hclean] at hnone
    cases hnone
  · have hvisible : firstVisible b = some '#' := hhash
    rcases hcomment with hnot | hnot
    · exact absurd hlast (hnot c rest)
    · exact absurd hvisible hnot
  · have htext : (Pairing.front counting a b limit).first.text = a := delivered_deliveries a
    have hnone : s₀.problems = [] := hproblems.trans hclean
    have hat := htwin.second
    have hlength := htwin.length_le
    rw [htext] at hblank hlength
    rw [show (Pairing.front counting a b limit).base = [] from rfl, List.append_nil] at hat hn
    have hbreak : LineBreak counting a b limit q (.ofSource .index (deliveries b) limit) t₀ :=
      ⟨rfl, hat, hlength, hblank, by rw [htwin.problems, hnone]; rfl,
        htwin.counts.2 (List.cons_ne_nil _ _)⟩
    obtain ⟨n, rfl⟩ : ∃ k, n = k + 1 := by
      have hleft := hat.reader.left
      exact ⟨n - 1, by omega⟩
    have hbehind := file_goesOn (mapEntries (.front counting a b limit) []
      (fileEntries .index (deliveries a) limit).1) q (Nat.le_refl _) hn _ _ hbreak
    have hrest' : repeatWithin (mapStep value none) (n + 1)
          (mapEntries (.front counting a b limit) []
            (fileEntries .index (deliveries a) limit).1) t₀ =
        fileEntries counting.meter (deliveries (a ++ '\n' :: b)) limit := hrest
    rw [hrest'] at hbehind
    exact hbehind.resolve_left (Pairing.not_astray rfl fun _ h => h)

end

/-! ## Trees and diagnostics of two texts -/

section

variable (label : String) (counting : Counting) (a b : List Char) (limit : Nat)

theorem front_range (span : Span Nat) :
    (span.map (Pairing.front counting a b limit).place).toRange label =
      Span.between label counting a span := by
  simp only [Span.map, Span.toRange, Pairing.front_place, Span.between, rangeBetween]

theorem behind_range (span : Span Nat) :
    (span.map (Pairing.behind counting a b limit).place).toRange label =
      (Span.between label counting b span).shift counting (a ++ ['\n']) := by
  simp only [Span.map, Span.toRange, Pairing.behind_place, Span.between, rangeBetween, Range.shift]

/-- A problem of the second text is the same one, shifted by the first line. -/
theorem behind_diagnostic (problem : Problem Nat)
    (honset : ∀ i, problem.start = .colonBefore i → 0 < i ∧ i ≤ b.length) :
    (problem.map (Pairing.behind counting a b limit).place).toDiagnostic label counting =
      ((problem.map fun i => Position.after counting (b.take i)).toDiagnostic label counting).shift
        counting (a ++ ['\n']) := by
  obtain ⟨cause, start, stop⟩ := problem
  have hstart : (start.map (Pairing.behind counting a b limit).place).resolve counting.meter =
      ((start.map fun i => Position.after counting (b.take i)).resolve counting.meter).shift
        counting (a ++ ['\n']) := by
    cases start with
    | place i => exact Pairing.behind_place counting a b limit i
    | colonBefore i =>
      obtain ⟨hpos, hle⟩ := honset i rfl
      -- a colon is one unit wide, and there is a character in front of the place
      have hsize : counting.size ':' = 1 := by cases counting <;> rfl
      have hne : b.take i ≠ [] := by
        rw [ne_eq, List.take_eq_nil_iff]
        rintro (h | h)
        · omega
        · simp [h] at hle
          omega
      have hlength := counting.length_pos hne
      have hoffset := Position.advanceBy_offset counting .start (b.take i)
      simp only [Onset.map, Onset.resolve, Pairing.behind_place]
      refine Position.shift_before counting _ ?_
      rw [hsize, Position.after, hoffset]
      omega
  simp only [Problem.map, Problem.toDiagnostic, Diagnostic.of, Diagnostic.shift,
    Range.shift, hstart, Pairing.behind_place]

end

/-- What the run over both texts has read, in terms of the runs in indexes over each of them. -/
theorem parse_append_twin (label : String) (options : Options) (a b : List Char)
    (hclean : (parse label (deliveries a) options).diagnostics = [])
    (hcomment :
      (∀ c, (parse label (deliveries a) options).map.entries.getLast? ≠ some (.comment c)) ∨
        firstVisible b ≠ some '#') :
    let K := Pairing.behind options.counting a b options.maxDepth
    let front := Grammar.fileEntries .index (deliveries a) options.maxDepth
    let behind := Grammar.fileEntries .index (deliveries b) options.maxDepth
    let whole := Grammar.fileEntries options.counting.meter (deliveries (a ++ '\n' :: b))
      options.maxDepth
    Grammar.Meets K (Grammar.mapEntries K
      (Grammar.mapEntries (.front options.counting a b options.maxDepth) [] front.1))
      behind.1 whole.1 behind.2 whole.2 := by
  refine fileEntries_append options.counting a b options.maxDepth (problems_of_clean hclean) ?_
  refine hcomment.imp_left fun hnot c rest hlast => ?_
  rw [parse_entries_eq, hlast] at hnot
  exact hnot (c.mapMarks (Span.between label options.counting (delivered (deliveries a))))
    (by simp [Entry.mapMarks])

/-- **Two texts**: if nothing is wrong with the text `a` and no comment at its end goes on in `b`,
the entries of `a` and `b` in two lines are those of `a` and then those of `b`, shifted by the line
in front, and what is wrong is what is wrong with `b`. -/
theorem parseText_append (label : String) (options : Options) (a b : String)
    (hclean : (parseText label a options).diagnostics = [])
    (hcomment : (∀ c, (parseText label a options).map.entries.getLast? ≠ some (.comment c)) ∨
      firstVisible b.toList ≠ some '#') :
    let front := parseText label a options
    let behind := parseText label b options
    let whole := parseText label (a ++ "\n" ++ b) options
    let line := (a ++ "\n").toList
    whole.map.entries = front.map.entries ++
      behind.map.entries.map (Entry.mapMarks (Range.shift options.counting line)) ∧
    whole.diagnostics = behind.diagnostics.map (Diagnostic.shift options.counting line) ∧
    whole.fatal = behind.fatal.map (Diagnostic.shift options.counting line) := by
  obtain ⟨hentries, q, htwin⟩ :=
    parse_append_twin label options a.toList b.toList hclean hcomment
  have htext : (a ++ "\n" ++ b).toList = a.toList ++ '\n' :: b.toList := by simp
  have hline : (a ++ "\n").toList = a.toList ++ ['\n'] := by simp
  simp only [parseText, htext, hline]
  refine ⟨?_, ?_, ?_⟩
  · rw [parse_entries, hentries, parse_entries_eq, parse_entries_eq]
    simp only [Grammar.mapEntries, List.append_nil, List.reverse_append, List.map_append,
      ← List.map_reverse, List.map_map, Function.comp_def, Entry.mapMarks_mapMarks, front_range,
      behind_range, delivered_deliveries]
  · -- a place in front of an index is shifted with it as long as it lies in the text
    have honsets : ∀ x ∈
        (Grammar.fileEntries .index (deliveries b.toList) options.maxDepth).2.problems,
        ∀ i, x.start = .colonBefore i → 0 < i ∧ i ≤ b.toList.length := by
      have h := htwin.onsets
      rwa [show (Pairing.behind options.counting a.toList b.toList options.maxDepth).first.text =
        b.toList from delivered_deliveries _] at h
    rw [parse_diagnostics, htwin.sameProblems rfl, parse_diagnostics_eq, Grammar.readFile_eq,
      delivered_deliveries, ← List.map_reverse, List.map_map, List.map_map]
    refine List.map_congr_left fun x hx => ?_
    exact behind_diagnostic label options.counting a.toList b.toList options.maxDepth x
      (honsets x (List.mem_reverse.mp hx))
  · rw [parse_fatal, parse_fatal, failureOf_deliveries, failureOf_deliveries]
    rfl

/-- A key, and on the next line a key without its value. -/
theorem parseText_append_keys :
    let front := parseText "" "x" {}
    let whole := parseText "" ("x" ++ "\n" ++ "y:") {}
    front.diagnostics = [] ∧ firstVisible "y:".toList ≠ some '#' ∧ whole.map.entries.length = 2 ∧
      whole.diagnostics.map Diagnostic.range = [⟨"", ⟨1, 1, 3⟩, ⟨1, 2, 4⟩⟩] := by
  have hclean : (parseText "" "x" {}).diagnostics = [] := by decide +kernel
  have hvisible : firstVisible "y:".toList ≠ some '#' := by decide +kernel
  obtain ⟨hentries, hdiagnostics, -⟩ := parseText_append "" {} "x" "y:" hclean (.inr hvisible)
  refine ⟨hclean, hvisible, ?_, ?_⟩
  · rw [hentries, List.length_append, List.length_map]
    decide +kernel
  · rw [hdiagnostics]
    decide +kernel

end Diagram
