import Diagram.Proofs.Diagnostics.Parse
import Diagram.Proofs.Order.Container
import Diagram.Proofs.Position.Order
import Diagram.Proofs.Twin.Counting

/-!
In which order the diagnostics of a source are listed. They are listed as they are noticed: none is
listed behind one that starts later, unless it closes over that one.
-/
namespace Diagram

/-! ## Positions of problems -/

section

variable (label : String) (counting : Counting) (text : List Char)

/-- The diagnostic of a problem that has been noticed at indexes of the text. -/
def Problem.located (x : Problem Nat) : Diagnostic :=
  (x.map fun i => Position.after counting (text.take i)).toDiagnostic label counting

theorem Problem.start_order_high (x : Problem Nat) :
    (x.located label counting text).range.start.order
      (.after counting (text.take x.high)) ≠ .gt := by
  obtain ⟨cause, start, stop⟩ := x
  cases start with
  | place i => exact Position.order_after_take counting text (Nat.le_refl i)
  | colonBefore i => exact Position.order_before counting _ ':'

variable {x : Problem Nat} {text : List Char}

/-- A colon's width in front of a place is not in front of the last character. -/
theorem Position.order_before_colon {i : Nat} (hi : i ≤ text.length) :
    (after counting (text.take (i - 1))).order ((after counting (text.take i)).before counting ':')
      ≠ .gt := by
  cases i with
  | zero =>
    rw [order_ne_gt_iff, before, counting.size_colon]
    exact .inr ⟨rfl, .inr ⟨rfl, Nat.zero_le _⟩⟩
  | succ k =>
    rw [Nat.add_sub_cancel, after_take_succ counting text (List.getElem?_eq_getElem hi),
      order_ne_gt_iff, before, counting.size_colon]
    have hsize := counting.size_pos text[k]
    unfold advance
    split
    · exact .inl (Nat.lt_succ_self _)
    · refine .inr ⟨rfl, ?_⟩
      dsimp only
      omega

theorem Problem.low_order_start (hhigh : x.high ≤ text.length) :
    (Position.after counting (text.take x.low)).order (x.located label counting text).range.start
      ≠ .gt := by
  obtain ⟨cause, start, stop⟩ := x
  cases start with
  | place i => exact Position.order_after_take counting text (Nat.le_refl i)
  | colonBefore i => exact Position.order_before_colon counting hhigh

/-- A problem that lies in the text starts in it. -/
theorem Problem.Lies.high_le {F : Frame Nat} (hF : F.meter = .index) (h : x.Lies F.toTape) :
    x.high ≤ F.text.length := by
  cases h with
  | between hij hj =>
    have hi := Nat.le_trans hij hj
    exact Nat.le_trans (Nat.le_of_eq (Grammar.Listing.mark_index hF hi)) hi
  | skipped hi => exact Nat.le_trans (Nat.le_of_eq (Grammar.Listing.mark_index hF hi)) hi
  | atColon hj => exact Nat.le_trans (Nat.le_of_eq (Grammar.Listing.mark_index hF hj)) hj

/-- Diagnostics are listed as their problems are. -/
theorem Problem.Follows.located {y : Problem Nat} (h : x.Follows y) (hy : y.high ≤ text.length) :
    let d := x.located label counting text
    let e := y.located label counting text
    d.range.start.order e.range.start ≠ .gt ∨
      e.code.closesOver d.code = true ∧
        (d.range.start.order e.range.stop ≠ .gt ∨ e.code = .unterminatedEdgeIndex) := by
  intro d e
  have hstart := x.start_order_high label counting text
  rcases h with hle | ⟨hcloses, hstop⟩
  · refine .inl (Position.order_ne_gt_trans hstart (Position.order_ne_gt_trans ?_
      (y.low_order_start label counting hy)))
    exact Position.order_after_take counting text hle
  · refine .inr ⟨hcloses, hstop.imp_left fun hle => ?_⟩
    exact Position.order_ne_gt_trans hstart (Position.order_after_take counting text hle)

end

/-! ## The order of a list of diagnostics -/

/-- **Order of diagnostics**: a diagnostic that is listed behind another one does not start in front
of it, unless it closes over that one: it is noticed when a construct is given up, and starts where
the construct does. What it closes over starts no later than it stops; only an edge index that is
given up may have something unexpected behind it. -/
theorem parse_diagnostics_listed (label : String) (source : List Delivery) (options : Options) :
    (parse label source options).diagnostics.Pairwise fun d e =>
      d.range.start.order e.range.start ≠ .gt ∨
        e.code.closesOver d.code = true ∧
          (d.range.start.order e.range.stop ≠ .gt ∨ e.code = .unterminatedEdgeIndex) := by
  have hstart := State.ofSource_at Meter.index_lawful source options.maxDepth
  have hlisted := Grammar.fileMap_listing rfl rfl (Grammar.value_listing rfl rfl) [] _ hstart
    ⟨List.Pairwise.nil, nofun⟩
  have hhigh : ∀ x ∈ (readFile .index source options.maxDepth).2.problems,
      x.high ≤ (delivered source).length := by
    intro x hx
    have hlies := Grammar.fileMap_notices rfl (Grammar.value_notices rfl) [] _ hstart x hx
    exact (hlies.resolve_left nofun).high_le rfl
  rw [parse_diagnostics_eq, List.pairwise_map, List.pairwise_reverse]
  refine hlisted.ordered.imp_of_mem fun hy _ h => ?_
  exact h.located label options.counting (hhigh _ hy)

/-- A sequence that is not closed is listed behind what is wrong inside of it: one that is too deep,
which is not closed either. -/
theorem parse_diagnostics_unsorted :
    ¬(parse "" (deliveries "a: [[1, [2]".toList) { maxDepth := 1 }).diagnostics.Pairwise
      fun d e => d.range.start.order e.range.start ≠ .gt := by
  decide +kernel

end Diagram
