import Diagram.Proofs.Keys.Container
import Diagram.Proofs.Sound.Parse
import Diagram.Tree.Edit

/-!
What holds of the keys and the maps in the tree of a source, whatever is wrong with the text.
-/
namespace Diagram

/-- The text behind a character is not on its first line and column. -/
theorem Position.after_take_ne_origin (counting : Counting) {text : List Char} {i : Nat}
    (h : 0 < i) (hi : i ≤ text.length) :
    ¬((Position.after counting (text.take i)).line = 0 ∧
      (Position.after counting (text.take i)).column = 0) := by
  rintro ⟨hline, hcolumn⟩
  have hlength : 0 < counting.length (text.take i) := counting.length_pos fun hnil => by
    have htake := List.length_take_of_le hi
    rw [hnil, List.length_nil] at htake
    omega
  have hmoved := advanceBy_column_of_line counting start hline
  have hsame : (start.advanceBy counting (text.take i)).column = 0 := hcolumn
  omega

/-- A problem is reported in the diagnostics of the source. -/
theorem Grammar.Reported.diagnostic {s : State Position} {code : Code} {span : Span Position}
    (h : Reported s.problems code span) (label : String) (counting : Counting) :
    ∃ d ∈ s.diagnostics label counting, d.code = code ∧
      d.range.start = (span.toRange label).start := by
  obtain ⟨x, hx, hcode, hstart⟩ := h
  refine ⟨x.toDiagnostic label counting, List.mem_map_of_mem (List.mem_reverse.mpr hx), hcode, ?_⟩
  show x.start.resolve counting.meter = span.start
  rw [hstart]
  rfl

/-- The keys and maps in the tree of a source are formed, with the map of the file at its start. -/
theorem readFile_formed {π : Type} [DecidableEq π] {meter : Meter π} (lawful : meter.Lawful)
    (source : List Delivery) (limit : Nat) :
    (readFile meter source limit).1.range.start = meter.start ∧
      Grammar.AllFormed (.ofSource meter lawful source limit) 1
        (readFile meter source limit).2.problems
        (Entry.partsAll (readFile meter source limit).1.entries) :=
  Grammar.fileMap_formed rfl (Grammar.value_formed rfl) [] _ (State.ofSource_at lawful source limit)

/-- **Keys and maps**: every key has a path or an edge, its paths have segments, its edges are
linked, a missing end of an edge is reported where the edge starts, and a primary scalar stands in
front of a map. The map of the file is the only one that starts in the first line and column. -/
theorem parse_formed (label : String) (source : List Delivery) (options : Options) :
    let output := parse label source options
    (∀ k, .key k ∈ output.map.parts → k.isNamed ∧ k.Formed fun code range =>
      ∃ d ∈ output.diagnostics, d.code = code ∧ d.range.start = range.start) ∧
    ∃ inner, output.map.parts = .map output.map :: inner ∧ output.map.isFileMap = true ∧
      ∀ m, .map m ∈ inner → m.isFileMap = false := by
  intro output
  obtain ⟨hfile, hparts⟩ :=
    readFile_formed options.counting.meter_lawful source options.maxDepth
  have hmap : output.map = (readFile options.counting.meter source options.maxDepth).1.mapMarks
      (Span.toRange label) := rfl
  rw [hmap, Map.parts_mapMarks, Map.parts_eq, List.map_cons]
  refine ⟨fun k hk => ?_, _, rfl, ?_, fun m hm => ?_⟩
  · obtain ⟨x, hx, hkey⟩ := List.mem_map.mp (List.mem_of_ne_of_mem (by simp [Part.mapMarks]) hk)
    cases x with
    | map m => cases hkey
    | key k' =>
      obtain rfl := Part.key.inj hkey
      obtain ⟨hnamed, hformed⟩ := hparts _ hx
      refine ⟨by rwa [Key.isNamed_mapMarks], hformed.mapMarks fun code span h => ?_⟩
      exact h.diagnostic label options.counting
  · generalize (readFile options.counting.meter source options.maxDepth).1 = m at hfile
    obtain ⟨span, entries⟩ := m
    have hspan : span.start = Position.start := hfile
    simp [Map.isFileMap, Map.mapMarks, Span.toRange, hspan, Position.start]
  · -- a map inside starts behind a character of the text, which is never the first place
    obtain ⟨x, hx, hinner⟩ := List.mem_map.mp hm
    cases x with
    | key k => cases hinner
    | map m' =>
      obtain rfl := Part.map.inj hinner
      obtain ⟨i, hi, hbrace, hstart⟩ := hparts _ hx
      obtain ⟨span, entries⟩ := m'
      have hspan : span.start =
          Position.after options.counting ((delivered source).take i) := hstart
      have hlength : i < (delivered source).length := (List.getElem?_eq_some_iff.mp hbrace).1
      have horigin := Position.after_take_ne_origin options.counting hi (Nat.le_of_lt hlength)
      simp only [Map.isFileMap, Map.mapMarks, Span.toRange, hspan]
      simpa using not_and.mp horigin

/-- A key with a primary scalar and a map that holds keys in a sequence. One of its edges has no
target. -/
theorem parse_formed_edges :
    let output :=
      parse "" (deliveries "x.(a -> -> b)[0].y: c \x7bd: [\x7be: f\x7d]\x7d; g".toList) {}
    output.map.isFileMap = true ∧ output.map.parts.length = 7 ∧
      ∃ k, .key k ∈ output.map.parts ∧ (∃ m, k.value = some (.map m)) ∧
        ∃ e ∈ k.edges, e.target = none ∧
          ∃ d ∈ output.diagnostics, d.code.name = "E031" ∧ d.range.start = e.range.start := by
  intro output
  obtain ⟨hkeys, inner, -, hfile, -⟩ := parse_formed ""
    (deliveries "x.(a -> -> b)[0].y: c \x7bd: [\x7be: f\x7d]\x7d; g".toList) {}
  refine ⟨hfile, by decide +kernel, ?_⟩
  have hfound : ∃ x ∈ output.map.parts, (match x with
      | .key k => k.primary.isSome && k.edges.any fun e => e.target.isNone
      | .map _ => false) = true := by
    decide +kernel
  obtain ⟨x, hx, hends⟩ := hfound
  cases x with
  | map m => cases hends
  | key k =>
    obtain ⟨hprimary, hmissing⟩ := Bool.and_eq_true_iff.mp hends
    obtain ⟨e, he, hnone⟩ := List.any_eq_true.mp hmissing
    obtain ⟨-, hformed⟩ := hkeys k hx
    have htarget : e.target = none := Option.isNone_iff_eq_none.mp hnone
    obtain ⟨d, hd, hcode, hstart⟩ := (hformed.edges.formed e he).missingTarget htarget
    exact ⟨k, hx, hformed.primary hprimary, e, he, htarget, d, hd, by rw [hcode]; rfl, hstart⟩

end Diagram
