import Diagram.Proofs.Twin.Counting

/-!
Handing over. The map of a file and a map with more text behind it are read by the same repetition.
The run over the common text alone and the one over both stay side by side up to the end of the
common text; what the second run comes to is then what it comes to from there.
-/
namespace Diagram

/-! ## What every pairing with a new line behind the common text needs -/

theorem Frame.ofFile_meter (a : List Char) (limit : Nat) :
    (Frame.ofSource .index Meter.index_lawful (deliveries a) limit).meter = .index := rfl

theorem newline_head? (b : List Char) : ∀ c ∈ ('\n' :: b).head?, c = '\n' := by
  simp

namespace Grammar

variable {π : Type} [DecidableEq π]

/-! ## The map of a file as a repetition -/

/-- The entries of a whole file, latest first. -/
def fileEntries (meter : Meter π) (source : List Delivery) (limit : Nat) :
    List (Entry (Span π)) × State π :=
  let start := State.ofSource meter source limit
  repeatWithin (mapStep value none) (start.reader.left + 1) [] start

theorem readFile_eq (meter : Meter π) (source : List Delivery) (limit : Nat) :
    let run := fileEntries meter source limit
    readFile meter source limit = (⟨⟨meter.start, run.2.reader.place⟩, run.1.reverse⟩, run.2) := by
  simp only [readFile, fileMap, outsideGroup, bind_apply, inGroup, State.ofSource, whenever]
  rfl

/-- Where nothing visible is left, the map of a file stops. -/
theorem mapStep_blank (value : Grammar π (Option (Value (Span π))))
    (entries : List (Entry (Span π))) {s : State π} {r : Reader π}
    (h : s.reader.readVisible = (none, r)) :
    mapStep value none entries s = (.stop entries, { s with reader := r }) := by
  rw [mapStep, readVisible, reading_bind, h]
  rfl

/-- Where nothing visible is left, the repetition ends with the step that finds so. -/
theorem repeatWithin_blank {F : Frame π} (value : Grammar π (Option (Value (Span π))))
    (entries : List (Entry (Span π))) {m : Nat} {p : List Char} {s : State π} (hs : s.At F p [])
    (hm : F.budget < m + p.length) (hblank : ∀ x ∈ F.text.drop p.length, isBlank x = true) :
    ∃ r, repeatWithin (mapStep value none) m entries s = (entries, { s with reader := r }) := by
  obtain ⟨m, rfl⟩ : ∃ k, m = k + 1 := by
    have hleft := hs.reader.left
    exact ⟨m - 1, by omega⟩
  obtain ⟨r, hnone, -⟩ := hs.reader.readVisible_none (by rwa [unread_of_drop hs rfl])
  have hstop := mapStep_blank value entries hnone
  rw [repeatWithin_stop (congrArg Prod.fst hstop), hstop]
  exact ⟨r, rfl⟩

/-- In front of a visible character, a map goes on from it. -/
theorem mapStep_visible (value : Grammar π (Option (Value (Span π)))) (opened : Option π)
    (entries : List (Entry (Span π))) {s : State π} {r : Reader π} {c : Char}
    (h : s.reader.readVisible = (some c, r)) :
    mapStep value opened entries s = mapStepFrom value opened entries c { s with reader := r } := by
  rw [mapStep, readVisible, reading_bind, h]

/-- Blanks in front of an entry do not matter. -/
theorem mapStep_skip (value : Grammar π (Option (Value (Span π)))) (opened : Option π)
    (entries : List (Entry (Span π))) {s : State π} {r : Reader π}
    (h : s.reader.readVisible = r.readVisible) :
    mapStep value opened entries s = mapStep value opened entries { s with reader := r } := by
  simp only [mapStep, readVisible, reading_bind, h]

/-! ## Up to the end of the common text -/

variable {K : Pairing π} {value₁ : Grammar Nat (Option (Value (Span Nat)))}
  {value₂ : Grammar π (Option (Value (Span π)))}

/-- The last entry read is a comment, and the text behind the new line may go on with it. -/
def EndsInComment (K : Pairing π) (entries : List (Entry (Span Nat))) (_ : State Nat) : Prop :=
  (∃ c rest, entries = .comment c :: rest) ∧ firstVisible K.tail = some '#'

/-- The first run has read `entries` and found nothing more, and what the second run comes to is
what it comes to from the same place. -/
def HandsOver (K : Pairing π) (value₂ : Grammar π (Option (Value (Span π)))) (opened : Option π)
    (entries : List (Entry (Span Nat))) (entries' : List (Entry (Span π))) (s : State Nat)
    (t : State π) : Prop :=
  ∃ q s₀ t₀ n, Twin K q [] s₀ t₀ ∧ s₀.problems = s.problems ∧
    (∀ x ∈ K.first.text.drop q.length, isBlank x = true) ∧
    K.second.budget < n + (q ++ K.base).length ∧
    repeatWithin (mapStep value₂ opened) n (mapEntries K [] entries) t₀ = (entries', t)

/-- An entry of a file is read alike in a map with more text behind: there, a closing brace ends the
map, but in the file it is reported. -/
theorem mapStepFrom_inside (hgroup : K.first.inGroup = false)
    (hvalue : ValueTwins (.plain K.place) K value₁ value₂)
    (htail : K.tail ≠ []) (opened : Option π)
    (entries : List (Entry (Span Nat))) {c : Char} (hc : isBlank c = false) (p : List Char) :
    Alike K (Twin K (c :: p) []) (mapStepFrom value₁ none entries c)
      (mapStepFrom value₂ opened (mapEntries K [] entries) c) (MapStrays K)
      (Meets K (Next.map (mapEntries K []))) := by
  cases opened with
  | none => exact mapStepFrom_alike hgroup hvalue none entries hc p
  | some start =>
    refine .ite Iff.rfl (fun _ => .done rfl) fun _ => .ite Iff.rfl ?_ fun _ =>
      entryLine_alike hgroup hvalue entries hc p
    -- the brace is reported in the file, and then there is nothing left to compare
    rintro rfl s t hs
    have hstray : Ensures (State.At K.first ('}' :: p) [])
        (reportStrayMapEnd >>= fun _ => pure (.again entries)) (K.Astray (MapStrays K)) := by
      rw [reportStrayMapEnd, bind_assoc]
      exact .placeOf (by decide) (.astray_reportToHere htail)
    exact .inl (hstray s hs.first)

/-- **Handing over**: the map of a file is read like a map with more text behind up to the end of
the common text, unless that ends in a comment that may go on. -/
theorem file_handsOver (hgroup : K.first.inGroup = false)
    (hvalue : ValueTwins (.plain K.place) K value₁ value₂)
    (htail : K.tail ≠ []) (opened : Option π) {start : Nat} (m n : Nat)
    (entries : List (Entry (Span Nat))) (p : List Char)
    (hentries : EntriesWithin K.first start entries p.length)
    (hm : K.first.budget < m + p.length) (hn : K.second.budget < n + (p ++ K.base).length) :
    Alike K (Twin K p []) (repeatWithin (mapStep value₁ none) m entries)
      (repeatWithin (mapStep value₂ opened) n (mapEntries K [] entries)) (EndsInComment K)
      (HandsOver K value₂ opened) := by
  -- on the steps of the first run; the second takes a step of its own for each of them
  induction m generalizing n entries p with
  | zero =>
    intro s t hs
    have hleft := hs.first.reader.left
    omega
  | succ m ih =>
    intro s t hs
    obtain ⟨n, rfl⟩ : ∃ k, n = k + 1 := by
      have hleft := hs.second.reader.left
      exact ⟨n - 1, by omega⟩
    rcases hs.readVisible with ⟨b, c, r, r', hc, hread, hread', hread''⟩ | ⟨r, -, -, hblank, -⟩
    · have hafter := mapStep_reads hgroup hvalue.reads none hentries s hs.first
      have hboth : K.Astray (MapStrays K) _ _ ∨ Meets K (Next.map (mapEntries K [])) _ _ _ _ :=
        mapStepFrom_inside hgroup hvalue htail opened entries hc (b ++ p) _ _ hread''
      obtain ⟨entries', hagain⟩ := mapStepFrom_again value₁ entries c { s with reader := r }
      rw [← mapStep_visible value₁ none entries hread] at hagain hboth
      rw [hagain] at hafter hboth
      obtain ⟨q, hq, hat, hI⟩ := hafter
      rw [repeatWithin_again hagain (hs.first.left_lt hat hq)]
      rcases hboth with (hvoid | ⟨-, ⟨comment, rest, hlast⟩, hhash, hspent⟩) | ⟨hsame, q', htwin⟩
      · exact .inl (stays_astray (mapStep value₁ none entries)
          (fun _ => repeatWithin (mapStep value₁ none) m entries') hvoid)
      · -- the comment was the last entry: the next step finds nothing and stops
        cases hlast
        obtain ⟨q', hat', hblank⟩ := hspent
        obtain rfl : q = q' := hat.reader.past.symm.trans hat'.reader.past
        obtain ⟨r₀, hend⟩ := repeatWithin_blank value₁ (.comment comment :: rest) hat
          (m := m) (by omega) hblank
        rw [hend]
        exact .inl (.inr ⟨htail, ⟨comment, rest, rfl⟩, hhash⟩)
      · obtain rfl : q = q' := hat.reader.past.symm.trans htwin.first.reader.past
        rw [← mapStep_visible value₂ opened _ hread'] at hsame htwin
        have hlt : (p ++ K.base).length < (q ++ K.base).length := by
          simp
          omega
        rw [repeatWithin_again hsame (hs.second.left_lt htwin.second hlt)]
        exact ih n entries' q hI (by omega) (by omega) _ _ htwin
    · rw [unread_of_drop hs.first rfl] at hblank
      obtain ⟨r₀, hend⟩ := repeatWithin_blank value₁ entries hs.first hm hblank
      rw [hend]
      exact .inr ⟨p, s, t, n + 1, hs, rfl, hblank, hn, rfl⟩

end Grammar

/-! ## Entries and problems of an output -/

section

variable (label : String) (source : List Delivery) (options : Options)

theorem parse_entries : (parse label source options).map.entries =
    (Grammar.fileEntries options.counting.meter source options.maxDepth).1.reverse.map
      (Entry.mapMarks (Span.toRange label)) := by
  show ((readFile options.counting.meter source options.maxDepth).1.mapMarks _).entries = _
  rw [Map.entries_mapMarks, Grammar.readFile_eq]

theorem parse_diagnostics : (parse label source options).diagnostics =
    (Grammar.fileEntries options.counting.meter source options.maxDepth).2.problems.reverse.map
      (Problem.toDiagnostic label options.counting) := by
  show (readFile options.counting.meter source options.maxDepth).2.problems.reverse.map _ = _
  rw [Grammar.readFile_eq]

/-- The entries of a source are those of the run in indexes with their ranges. -/
theorem parse_entries_eq : (parse label source options).map.entries =
    (Grammar.fileEntries .index source options.maxDepth).1.reverse.map
      (Entry.mapMarks (Span.between label options.counting (delivered source))) := by
  rw [parse_map_eq, Map.entries_mapMarks, Grammar.readFile_eq]

end

/-- If nothing is wrong with a source, the run in indexes over it has found no problem. -/
theorem problems_of_clean {label : String} {source : List Delivery} {options : Options}
    (h : (parse label source options).diagnostics = []) :
    (Grammar.fileEntries .index source options.maxDepth).2.problems = [] := by
  rw [parse_diagnostics_eq, Grammar.readFile_eq] at h
  simpa using h

end Diagram
