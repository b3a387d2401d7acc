import Diagram.Proofs.Twin.Counting

/-!
Raising the limit. A run that never comes to its limit has nothing to do with it: beside a run with
a higher limit it stays a twin to the end, and both find the same tree and the same problems.
-/
namespace Diagram

section

variable (counting : Counting) (source : List Delivery) (limit higher : Nat)

/-- A run in plain indexes, and a run in a counting with a limit of its own. The comparison is void
where the first run skips a container. -/
def Pairing.raised : Pairing Position :=
  let K := Pairing.counted counting (rfl : delivered source = _) limit
  { K with
    second := .ofSource counting.meter counting.meter_lawful source higher,
    voids := fun cause => cause = .nestingTooDeep, voids_of_tail := fun h => absurd rfl h,
    meter := K.meter, text := K.text, newline := K.newline, blocks := K.blocks, depth := K.depth,
    inGroup := K.inGroup }

theorem Twin.raised :
    Twin (.raised counting source limit higher) [] [] (.ofSource .index source limit)
      (.ofSource counting.meter source higher) where
  first := State.ofSource_at Meter.index_lawful source limit
  second := State.ofSource_at counting.meter_lawful source higher
  problems := rfl
  onsets := by simp [State.ofSource]
  clean _ := rfl
  counts := ⟨fun _ => rfl, fun h => absurd rfl h⟩

/-- A run that skips no container finds what a run with a higher limit finds. -/
theorem readFile_raised (hle : limit ≤ higher)
    (hfree : ∀ x ∈ (readFile .index source limit).2.problems, x.cause ≠ .nestingTooDeep) :
    Grammar.Meets (.raised counting source limit higher)
      (Map.mapMarks (Span.map (Pairing.raised counting source limit higher).place))
      (readFile .index source limit).1 (readFile counting.meter source higher).1
      (readFile .index source limit).2 (readFile counting.meter source higher).2 := by
  have halike := Grammar.fileMap_alike (K := .raised counting source limit higher) rfl rfl
    (Grammar.value_twins rfl ⟨hle, .inr rfl⟩) [] _ _ (Twin.raised counting source limit higher)
  refine halike.resolve_left ?_
  rintro (⟨x, hx, hdeep⟩ | ⟨hne, -⟩)
  · exact hfree x hx hdeep
  · exact hne rfl

end

/-- A container that the run in indexes skips is reported. -/
theorem skipped_reported (label : String) (source : List Delivery) (options : Options)
    (hskip : ∃ x ∈ (readFile .index source options.maxDepth).2.problems,
      x.cause = .nestingTooDeep) :
    ∃ d ∈ (parse label source options).diagnostics, d.code.name = "E006" := by
  obtain ⟨x, hx, hdeep⟩ := hskip
  rw [parse_diagnostics_eq]
  refine ⟨_, List.mem_map_of_mem (List.mem_reverse.mpr hx), ?_⟩
  show x.cause.code.name = "E006"
  rw [hdeep]
  rfl

/-- **The limit is inert until it is hit**: where no container is reported as nested too deep, a
higher limit gives the same tree, the same diagnostics and the same failure. -/
theorem parse_limit_inert (label : String) (source : List Delivery) (utf16 : Bool)
    {limit higher : Nat} (hle : limit ≤ higher)
    (hfree : ∀ d ∈ (parse label source { utf16, maxDepth := limit }).diagnostics,
      d.code.name ≠ "E006") :
    parse label source { utf16, maxDepth := higher } =
      parse label source { utf16, maxDepth := limit } := by
  have hskips : ∀ x ∈ (readFile .index source limit).2.problems, x.cause ≠ .nestingTooDeep := by
    intro x hx hdeep
    obtain ⟨d, hd, hcode⟩ :=
      skipped_reported label source { utf16, maxDepth := limit } ⟨x, hx, hdeep⟩
    exact hfree d hd hcode
  let counting := Options.counting { utf16 }
  -- both limits give what the run in indexes finds at the lower one
  obtain ⟨hmap, _, htwin⟩ := readFile_raised counting source limit higher hle hskips
  obtain ⟨hmap', _, htwin'⟩ := readFile_counted counting (rfl : delivered source = _) limit
  have hproblems := (htwin.sameProblems rfl).trans (htwin'.sameProblems rfl).symm
  refine Output.ext ?_ ?_ ?_
  · exact congrArg (Map.mapMarks (Span.toRange label)) (hmap.trans hmap'.symm)
  · exact congrArg (fun problems => problems.reverse.map (Problem.toDiagnostic label counting))
      hproblems
  · rw [parse_fatal, parse_fatal]
    rfl

/-- A map inside a map, at a limit that it just keeps. -/
theorem parse_limit_inert_map :
    (parse "" (deliveries "a: \x7bb: \x7bc\x7d\x7d ]".toList) { maxDepth := 2 }).diagnostics.map
        (fun d => d.code.name) = ["E003"] ∧
      parse "" (deliveries "a: \x7bb: \x7bc\x7d\x7d ]".toList) { maxDepth := 3 } =
        parse "" (deliveries "a: \x7bb: \x7bc\x7d\x7d ]".toList) { maxDepth := 2 } := by
  have hcodes : (parse "" (deliveries "a: \x7bb: \x7bc\x7d\x7d ]".toList)
      { maxDepth := 2 }).diagnostics.map (fun d => d.code.name) = ["E003"] := by
    decide +kernel
  refine ⟨hcodes, parse_limit_inert "" _ false (by decide) fun d hd hdeep => ?_⟩
  have hmem := List.mem_map_of_mem (f := fun d => d.code.name) hd
  rw [hcodes, hdeep] at hmem
  exact absurd hmem (by decide)

end Diagram
