import Diagram.Chars.Lines
import Diagram.Proofs.Position

/-!
Order of positions. Moving over a text leads to a later position, and stepping back over what stands
on one line undoes moving over it.
-/
namespace Diagram.Position

/-! ## Order -/

theorem order_eq_lt_iff {p q : Position} :
    p.order q = .lt ↔ p.line < q.line ∨
      p.line = q.line ∧ (p.column < q.column ∨ p.column = q.column ∧ p.offset < q.offset) := by
  simp [order, Ordering.then_eq_lt, Nat.compare_eq_lt]

theorem order_trans {p q r : Position} (h : p.order q = .lt) (h' : q.order r = .lt) :
    p.order r = .lt := by
  rw [order_eq_lt_iff] at h h' ⊢
  omega

theorem order_ne_gt_iff {p q : Position} :
    p.order q ≠ .gt ↔ p.line < q.line ∨
      p.line = q.line ∧ (p.column < q.column ∨ p.column = q.column ∧ p.offset ≤ q.offset) := by
  simp only [order, ne_eq, Ordering.then_eq_gt, Nat.compare_eq_gt, Nat.compare_eq_eq]
  omega

theorem order_ne_gt_of_lt {p q : Position} (h : p.order q = .lt) : p.order q ≠ .gt := by
  rw [h]
  exact nofun

theorem order_ne_gt_trans {p q r : Position} (h : p.order q ≠ .gt) (h' : q.order r ≠ .gt) :
    p.order r ≠ .gt := by
  rw [order_ne_gt_iff] at h h' ⊢
  omega

variable (counting : Counting) (p : Position)

/-- Every character leads to a later position. -/
theorem order_advance (c : Char) : p.order (p.advance counting c) = .lt := by
  have hsize := counting.size_pos c
  rw [order_eq_lt_iff, advance]
  split
  · exact .inl (Nat.lt_succ_self p.line)
  · exact .inr ⟨rfl, .inl (Nat.lt_add_of_pos_right hsize)⟩

theorem order_advanceBy {cs : List Char} (h : cs ≠ []) :
    p.order (p.advanceBy counting cs) = .lt := by
  induction cs generalizing p with
  | nil => exact absurd rfl h
  | cons c cs ih =>
    have hfirst := order_advance counting p c
    cases cs with
    | nil => exact hfirst
    | cons x cs => exact order_trans hfirst (ih _ (List.cons_ne_nil x cs))

/-- Longer stretches of a text lead to later positions. -/
theorem order_after_take (cs : List Char) {i j : Nat} (hij : i ≤ j) :
    (after counting (cs.take i)).order (after counting (cs.take j)) ≠ .gt := by
  obtain ⟨rest, hrest⟩ := List.take_prefix_take_left hij (l := cs)
  rw [← hrest, after, after, advanceBy_append]
  by_cases hempty : rest = []
  · rw [hempty, order_ne_gt_iff]
    exact .inr ⟨rfl, .inr ⟨rfl, Nat.le_refl _⟩⟩
  · exact order_ne_gt_of_lt (order_advanceBy counting _ hempty)

/-- Stepping back over a character leads to no later position. -/
theorem order_before (c : Char) : (p.before counting c).order p ≠ .gt := by
  rw [order_ne_gt_iff]
  refine .inr ⟨rfl, ?_⟩
  simp only [before]
  omega

/-! ## Columns -/

/-- The column is counted from the last newline, or from where it was if there is none. -/
theorem advanceBy_column_eq (cs : List Char) :
    (p.advanceBy counting cs).column =
      match cutLast '\n' cs with
      | some (_, rest) => counting.length rest
      | none => p.column + counting.length cs := by
  induction cs generalizing p with
  | nil => rfl
  | cons c cs ih =>
    rw [advanceBy_cons, ih, cutLast]
    cases cutLast '\n' cs with
    | some cut => rfl
    | none =>
      by_cases hc : c = '\n'
      · simp [advance, hc]
      · simp [advance, hc, Counting.length, Nat.add_assoc]

/-! ## Stepping back -/

/-- Stepping back over text on one line takes its length from the column and from the offset. -/
theorem stepBackBy_of_not_mem {cs : List Char} (h : '\n' ∉ cs) :
    p.stepBackBy counting cs =
      .ok ⟨p.line, p.column - counting.length cs, p.offset - counting.length cs⟩ := by
  induction cs generalizing p with
  | nil => rfl
  | cons c cs ih =>
    have hc : c ≠ '\n' := fun hc => h (hc ▸ List.mem_cons_self)
    have hrest := ih (p.before counting c) (List.not_mem_of_not_mem_cons h)
    rw [stepBackBy, List.foldlM_cons, stepBack, if_neg hc]
    refine Eq.trans hrest ?_
    simp only [before, Counting.length, Nat.sub_sub]

theorem stepBackBy_advanceBy {cs : List Char} (h : '\n' ∉ cs) :
    (p.advanceBy counting cs).stepBackBy counting cs = .ok p := by
  have hline : (p.advanceBy counting cs).line = p.line := by
    rw [advanceBy_line, List.count_eq_zero.mpr h, Nat.add_zero]
  rw [stepBackBy_of_not_mem counting _ h, hline, advanceBy_column_of_line counting p hline,
    advanceBy_offset, Nat.add_sub_cancel, Nat.add_sub_cancel]

end Diagram.Position
