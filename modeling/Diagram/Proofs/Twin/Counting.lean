import Diagram.Proofs.Marks
import Diagram.Proofs.Sound.Parse
import Diagram.Proofs.Twin.Container

/-!
How places are counted makes no difference to what is read. A run in plain indexes stands beside the
run in bytes and beside the run in UTF-16 code units: both give the tree of indexes in their own
places.
-/
namespace Diagram

/-! ## Indexes beside a counting -/

/-- Nothing makes a comparison void where nothing comes behind the common text. -/
theorem Pairing.not_astray {π α : Type} {K : Pairing π} {E : α → State Nat → Prop} {a : α}
    {s : State Nat} (htail : K.tail = []) (hvoids : ∀ cause, ¬K.voids cause) :
    ¬K.Astray E a s := by
  rintro (⟨x, -, hvoid⟩ | ⟨hne, -⟩)
  · exact hvoids _ hvoid
  · exact hne htail

/-- A run in plain indexes and a run in a counting, over sources that end with the same text. The
second run has consumed what its source has in front of that text. -/
def Pairing.ofSources (counting : Counting) {source other : List Delivery} (base : List Char)
    (h : delivered other = base.reverse ++ delivered source) (limit : Nat) :
    Pairing Position where
  first := .ofSource .index Meter.index_lawful source limit
  second := .ofSource counting.meter counting.meter_lawful other limit
  base
  tail := []
  shift := 0
  voids _ := False
  extra := []
  meter := rfl
  text := h.trans (List.append_nil _).symm
  newline := by simp
  voids_of_tail h := absurd rfl h
  blocks := .inl rfl
  depth := rfl
  inGroup := rfl

theorem Pairing.ofSources_limits (counting : Counting) {source other : List Delivery}
    (base : List Char) (h : delivered other = base.reverse ++ delivered source) (limit : Nat) :
    (Pairing.ofSources counting base h limit).Limits :=
  ⟨Nat.le_refl _, .inl rfl⟩

/-- A run in plain indexes and a run in a counting, over sources that deliver the same. -/
def Pairing.counted (counting : Counting) {source other : List Delivery}
    (h : delivered other = delivered source) (limit : Nat) : Pairing Position :=
  .ofSources counting [] h limit

section

variable (counting : Counting) {source other : List Delivery}
  (h : delivered other = delivered source) (limit : Nat)

/-- The place of an index is the position behind as many characters. -/
theorem Pairing.counted_place (i : Nat) :
    (Pairing.counted counting h limit).place i =
      Position.after counting ((delivered source).take i) := by
  show counting.meter.after ((delivered other).take (0 + min i (delivered source).length)) = _
  rw [h, Nat.zero_add, ← List.take_eq_take_min]
  exact counting.meter_after _

theorem Twin.counted :
    Twin (.counted counting h limit) [] [] (.ofSource .index source limit)
      (.ofSource counting.meter other limit) where
  first := State.ofSource_at Meter.index_lawful source limit
  second := State.ofSource_at counting.meter_lawful other limit
  problems := rfl
  onsets := by simp [State.ofSource]
  clean _ := rfl
  counts := ⟨fun _ => rfl, fun h => absurd rfl h⟩

/-- A file is read in every counting as it is read in plain indexes. -/
theorem readFile_counted :
    Grammar.Meets (.counted counting h limit)
      (Map.mapMarks (Span.map (Pairing.counted counting h limit).place))
      (readFile .index source limit).1 (readFile counting.meter other limit).1
      (readFile .index source limit).2 (readFile counting.meter other limit).2 := by
  have halike := Grammar.fileMap_alike (K := .counted counting h limit) rfl rfl
    (Grammar.value_twins rfl (Pairing.ofSources_limits counting [] h limit)) [] _ _
    (Twin.counted counting h limit)
  exact halike.resolve_left (Pairing.not_astray rfl fun _ h => h)

end

variable (label : String) (source : List Delivery) (options : Options)

/-- The range in the text called `label` that a span of indexes stands for. -/
def Span.between (label : String) (counting : Counting) (text : List Char)
    (span : Span Nat) : Range :=
  rangeBetween label counting text span.start span.stop

section

variable {source} {other : List Delivery} (h : delivered other = delivered source)

theorem Span.toRange_counted (counting : Counting) (limit : Nat) :
    (fun span => Span.toRange label (span.map (Pairing.counted counting h limit).place)) =
      Span.between label counting (delivered source) := by
  funext span
  simp only [Span.map, Span.toRange, Pairing.counted_place, Span.between, rangeBetween]

include h

/-- The tree of a source is the tree of indexes of what it delivers, with their ranges. -/
theorem parse_map_of_delivered : (parse label other options).map =
    (readFile .index source options.maxDepth).1.mapMarks
      (Span.between label options.counting (delivered source)) := by
  have hmap := (readFile_counted options.counting h options.maxDepth).1
  show (readFile options.counting.meter other options.maxDepth).1.mapMarks (Span.toRange label) = _
  rw [hmap, Map.mapMarks_mapMarks, Span.toRange_counted]

/-- The diagnostics of a source are the problems of the run in indexes over what it delivers, in
their places. -/
theorem parse_diagnostics_of_delivered : (parse label other options).diagnostics =
    (readFile .index source options.maxDepth).2.problems.reverse.map fun problem =>
      (problem.map fun i =>
        Position.after options.counting ((delivered source).take i)).toDiagnostic
        label options.counting := by
  obtain ⟨-, q, htwin⟩ := readFile_counted options.counting h options.maxDepth
  have hplace : (Pairing.counted options.counting h options.maxDepth).place =
      fun i => Position.after options.counting ((delivered source).take i) :=
    funext (Pairing.counted_place options.counting h options.maxDepth)
  have hproblems := htwin.sameProblems rfl
  rw [hplace] at hproblems
  show (readFile options.counting.meter other options.maxDepth).2.problems.reverse.map _ = _
  rw [hproblems, ← List.map_reverse, List.map_map]
  rfl

end

theorem parse_map_eq : (parse label source options).map =
    (readFile .index source options.maxDepth).1.mapMarks
      (Span.between label options.counting (delivered source)) :=
  parse_map_of_delivered label options rfl

theorem parse_diagnostics_eq : (parse label source options).diagnostics =
    (readFile .index source options.maxDepth).2.problems.reverse.map fun problem =>
      (problem.map fun i =>
        Position.after options.counting ((delivered source).take i)).toDiagnostic
        label options.counting :=
  parse_diagnostics_of_delivered label options rfl

/-! ## Two countings -/

/-- What a diagnostic says, wherever it points. -/
def Diagnostic.saying (d : Diagnostic) : Code × String × Option String :=
  (d.code, d.message, d.help)

theorem parse_sayings : (parse label source options).diagnostics.map Diagnostic.saying =
    (readFile .index source options.maxDepth).2.problems.reverse.map fun problem =>
      (problem.cause.code, problem.cause.message, problem.cause.help?) := by
  rw [parse_diagnostics_eq, List.map_map]
  rfl

theorem parse_fatal_saying : (parse label source options).fatal.map Diagnostic.saying =
    (failureOf source).map fun reason =>
      let cause := Cause.sourceFailure reason
      (cause.code, cause.message, cause.help?) := by
  rw [parse_fatal, Option.map_map]
  rfl

/-- An index among those of a text of `n` characters, or else the last of them. -/
def boundedIndex (n i : Nat) : Fin (n + 1) :=
  ⟨min i n, by omega⟩

theorem take_boundedIndex (text : List Char) (i : Nat) :
    text.take (boundedIndex text.length i) = text.take i :=
  List.take_eq_take_min.symm

/-- **Countings agree**: read in bytes and in UTF-16 code units, every source gives one tree of
spans between indexes of its text, each in the places of its own counting, and the same sayings. -/
theorem countings_agree (label : String) (source : List Delivery) (maxDepth : Nat) :
    let bytes := parse label source { utf16 := false, maxDepth }
    let units := parse label source { utf16 := true, maxDepth }
    (∃ tree : Map (Span (Fin ((delivered source).length + 1))),
      bytes.map = tree.mapMarks (fun span =>
        rangeBetween label .bytes (delivered source) span.start span.stop) ∧
      units.map = tree.mapMarks (fun span =>
        rangeBetween label .units16 (delivered source) span.start span.stop)) ∧
    bytes.diagnostics.map Diagnostic.saying = units.diagnostics.map Diagnostic.saying ∧
    bytes.fatal.map Diagnostic.saying = units.fatal.map Diagnostic.saying := by
  -- an index behind the end of the text stands for its end, so that all of them can be bounded
  have hranges : ∀ counting, Span.between label counting (delivered source) = fun span : Span Nat =>
      let bounded := span.map (boundedIndex (delivered source).length)
      rangeBetween label counting (delivered source) bounded.start bounded.stop := by
    intro counting
    funext span
    simp only [Span.between, rangeBetween, Span.map, take_boundedIndex]
  refine ⟨⟨(readFile .index source maxDepth).1.mapMarks
    (Span.map (boundedIndex (delivered source).length)), ?_, ?_⟩, ?_, ?_⟩
  · rw [parse_map_eq, Map.mapMarks_mapMarks, hranges]
    rfl
  · rw [parse_map_eq, Map.mapMarks_mapMarks, hranges]
    rfl
  · rw [parse_sayings, parse_sayings]
  · rw [parse_fatal_saying, parse_fatal_saying]

end Diagram
