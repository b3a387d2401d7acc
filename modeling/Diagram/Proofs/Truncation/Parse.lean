import Diagram.Proofs.Position
import Diagram.Proofs.Truncation.Twin
import Diagram.Proofs.Twin.Raising

/-!
The limit truncates. Where a source is read without any problem, a run with a limit of its own finds
the same tree down to that limit: each container one level below it is empty, and is reported where
it starts.
-/
namespace Diagram

/-! ## Beside the run with the limit -/

section

variable (counting : Counting) (source : List Delivery) (unlimited limit : Nat)

/-- A run in plain indexes, and a run in a counting with the given limit. Any problem of the first
run makes the comparison void. -/
def Pairing.truncated : Pairing Position :=
  let K := Pairing.raised counting source unlimited limit
  { K with
    voids := fun _ => True, voids_of_tail := fun _ _ => trivial, meter := K.meter, text := K.text,
    newline := K.newline, blocks := K.blocks, depth := K.depth, inGroup := K.inGroup }

theorem Twin.truncated :
    Twin (.truncated counting source unlimited limit) [] [] (.ofSource .index source unlimited)
      (.ofSource counting.meter source limit) :=
  have h := Twin.raised counting source unlimited limit
  ⟨h.first, h.second, h.problems, h.onsets, h.clean, fun ⟨_, hfalse⟩ => absurd trivial hfalse,
    fun htail => absurd rfl htail⟩

theorem Pairing.truncated_place : (Pairing.truncated counting source unlimited limit).place =
    fun i => Position.after counting ((delivered source).take i) :=
  funext (Pairing.counted_place counting (rfl : delivered source = _) limit)

theorem Pairing.truncated_truncates (hovert : ∀ c ∈ delivered source, hidesBrackets c = false) :
    (Pairing.truncated counting source unlimited limit).Truncates limit where
  voids _ := trivial
  tail := rfl
  shift := rfl
  limit := rfl
  overt := hovert
  inGroup := rfl

/-- Where the first run notices no problem, the second has its tree cut at the limit, and notices
what is cut. -/
theorem readFile_cut (hovert : ∀ c ∈ delivered source, hidesBrackets c = false)
    (hclean : (readFile .index source unlimited).2.problems = []) :
    let full := (readFile .index source unlimited).1
    let place i := Position.after counting ((delivered source).take i)
    (readFile counting.meter source limit).1 = (full.truncate limit 0).mapMarks (Span.map place) ∧
      (readFile counting.meter source limit).2.problems =
        tooDeepNotes place limit (full.containers 0) := by
  intro full place
  have hK := Pairing.truncated_truncates counting source unlimited limit hovert
  have hboth := Grammar.fileMap_cut hK rfl [] _ _ (Twin.truncated counting source unlimited limit)
  rcases hboth with hastray | ⟨hmap, _, htwin⟩
  · rcases hastray with ⟨x, hx, -⟩ | ⟨htail, -⟩
    · exact absurd (hclean ▸ hx) List.not_mem_nil
    · exact absurd rfl htail
  · rw [Pairing.truncated_place] at hmap
    refine ⟨hmap, ?_⟩
    calc
      _ = ((readFile .index source unlimited).2.problems.map (Problem.map _)) ++ (_ ++ []) :=
        htwin.problems
      _ = tooDeepNotes place limit (full.containers 0) := by
        rw [hclean, Pairing.truncated_place, List.append_nil]
        rfl

end

/-! ## The tree and the diagnostics -/

/-- Each container that is skipped is reported where it starts, in the order of the text. -/
theorem tooDeepNotes_diagnostics (label : String) (counting : Counting) (text : List Char)
    (limit : Nat) (containers : List (Container (Span Nat))) :
    let place i := Position.after counting (text.take i)
    ((tooDeepNotes place limit containers).reverse.map (Problem.toDiagnostic label counting)).map
        (fun d => (d.code.name, d.range.start)) =
      ((onLevel (limit + 1) containers).map
        (Container.mapMark (Span.between label counting text))).map
        fun c => ("E006", c.range.start) := by
  intro place
  rw [tooDeepNotes, List.reverse_reverse, List.map_map, List.map_map, List.map_map]
  rfl

/-- **The limit truncates**: where a text without quotes, pipes, hash signs and backslashes is read
without diagnostics, a run with any other limit gives the same tree, in which the containers one
level below that limit are empty. The diagnostics of that run are one for each of these containers,
where it starts, from the first container of the text to the last. -/
theorem parse_truncates (label : String) (source : List Delivery) (utf16 : Bool) {unlimited : Nat}
    (limit : Nat) (hovert : ∀ c ∈ delivered source, c ∉ ['"', '\'', '|', '#', '\\'])
    (hclean : (parse label source { utf16, maxDepth := unlimited }).diagnostics = []) :
    let full := parse label source { utf16, maxDepth := unlimited }
    let cut := parse label source { utf16, maxDepth := limit }
    let emptied := onLevel (limit + 1) (full.map.containers 0)
    cut.map = full.map.truncate limit 0 ∧
      cut.diagnostics.map (fun d => (d.code.name, d.range.start)) =
        emptied.map (fun c => ("E006", c.range.start)) ∧
      emptied.Pairwise (fun c d => c.range.stop.offset ≤ d.range.start.offset) ∧
      cut.fatal = full.fatal := by
  intro full cut emptied
  let counting := Options.counting { utf16 }
  let first := readFile .index source unlimited
  have hfull : full.map = first.1.mapMarks (Span.between label counting (delivered source)) :=
    parse_map_eq label source _
  have hproblems : first.2.problems = [] := by
    rw [parse_diagnostics_eq] at hclean
    simpa using hclean
  obtain ⟨hmap, hnotes⟩ := readFile_cut counting source unlimited limit
    (fun c hc => decide_eq_false (hovert c hc)) hproblems
  refine ⟨?_, ?_, ?_, ?_⟩
  · show (readFile counting.meter source limit).1.mapMarks (Span.toRange label) = _
    rw [hmap, hfull, Map.mapMarks_mapMarks, Map.truncate_mapMarks]
    rfl
  · have hemptied : emptied = (onLevel (limit + 1) (first.1.containers 0)).map
        (Container.mapMark (Span.between label counting (delivered source))) := by
      rw [← onLevel_mapMark, ← Map.containers_mapMarks, ← hfull]
    have hdiagnostics : cut.diagnostics =
        (readFile counting.meter source limit).2.problems.reverse.map
          (Problem.toDiagnostic label counting) := rfl
    rw [hdiagnostics, hnotes, hemptied, tooDeepNotes_diagnostics]
  · have hwithin : full.map.Within (rangeBetween label counting (delivered source)) 0 _ :=
      parse_within label source _
    refine (Map.row (limit + 1) 0 full.map hwithin).pairwise
      (R := fun r s : Range => r.stop.offset ≤ s.start.offset) fun hjk => ?_
    exact Position.after_take_offset_le counting _ hjk
  · exact (parse_fatal label source { utf16, maxDepth := limit }).trans
      (parse_fatal label source { utf16, maxDepth := unlimited }).symm

/-- A map and a sequence that are emptied, with an edge behind them. -/
theorem parse_truncates_map :
    let source := deliveries "a: \x7bb: \x7bc -> d\x7d; e: [f; [g]]\x7d; h -> i".toList
    let full := parse "" source { maxDepth := 3 }
    let cut := parse "" source { maxDepth := 1 }
    full.diagnostics = [] ∧ cut.map = full.map.truncate 1 0 ∧
      cut.diagnostics.map (fun d => (d.code.name, d.range.start)) =
        [("E006", ⟨0, 7, 7⟩), ("E006", ⟨0, 20, 20⟩)] := by
  intro source full cut
  have hclean : full.diagnostics = [] := by decide +kernel
  have hovert : (delivered source).all (fun c => c ∉ ['"', '\'', '|', '#', '\\']) = true := by
    decide +kernel
  obtain ⟨hmap, hdiagnostics, -⟩ := parse_truncates "" source false 1
    (fun c hc => of_decide_eq_true (List.all_eq_true.mp hovert c hc)) hclean
  exact ⟨hclean, hmap, hdiagnostics.trans (by decide +kernel)⟩

end Diagram
