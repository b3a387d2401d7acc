import Diagram.Position

/-!
What moving over text does to a position: it goes down by the number of newlines and along by the
length of the text.
-/
namespace Diagram

theorem Counting.length_pos (counting : Counting) {cs : List Char} (h : cs ≠ []) :
    0 < counting.length cs := by
  cases cs with
  | nil => exact absurd rfl h
  | cons c cs => exact Nat.add_pos_left (counting.size_pos c) _

theorem Counting.length_append (counting : Counting) (u v : List Char) :
    counting.length (u ++ v) = counting.length u + counting.length v := by
  induction u with
  | nil => simp [Counting.length]
  | cons c u ih => simp [Counting.length, ih, Nat.add_assoc]

/-- Every character takes a unit. -/
theorem Counting.le_length (counting : Counting) (cs : List Char) :
    cs.length ≤ counting.length cs := by
  induction cs with
  | nil => exact Nat.le_refl 0
  | cons c cs ih =>
    have hsize := counting.size_pos c
    rw [List.length_cons, length]
    omega

theorem Counting.length_le_of_prefix (counting : Counting) {u v : List Char} (h : u <+: v) :
    counting.length u ≤ counting.length v := by
  obtain ⟨w, rfl⟩ := h
  rw [length_append]
  exact Nat.le_add_right _ _

namespace Position

/-- The fields of the position can be held. -/
structure Fits (p : Position) : Prop where
  line : p.line ≤ maxWord
  column : p.column ≤ maxWord
  offset : p.offset ≤ maxWord

variable (counting : Counting)

theorem advanceBy_line (p : Position) (cs : List Char) :
    (p.advanceBy counting cs).line = p.line + cs.count '\n' := by
  induction cs generalizing p with
  | nil => rfl
  | cons c cs ih =>
    rw [advanceBy_cons, ih, List.count_cons]
    by_cases hc : c = '\n'
    · simp [advance, hc]
      omega
    · simp [advance, hc]

theorem advanceBy_offset (p : Position) (cs : List Char) :
    (p.advanceBy counting cs).offset = p.offset + counting.length cs := by
  induction cs generalizing p with
  | nil => rfl
  | cons c cs ih =>
    have hstep : (p.advance counting c).offset = p.offset + counting.size c := by
      unfold advance
      split <;> rfl
    rw [advanceBy_cons, ih, hstep, Counting.length, Nat.add_assoc]

/-- Behind a newline, the first column begins. -/
theorem advanceBy_column (p : Position) (cs : List Char) :
    (p.advanceBy counting (cs ++ ['\n'])).column = 0 := by
  rw [advanceBy_append, advanceBy_cons, advanceBy_nil, advance, if_pos rfl]

/-- On one line, the column goes along with the text. -/
theorem advanceBy_column_of_line (p : Position) {cs : List Char}
    (h : (p.advanceBy counting cs).line = p.line) :
    (p.advanceBy counting cs).column = p.column + counting.length cs := by
  induction cs generalizing p with
  | nil => rfl
  | cons c cs ih =>
    rw [advanceBy_cons] at h ⊢
    have hline := advanceBy_line counting (p.advance counting c) cs
    by_cases hc : c = '\n'
    · simp only [advance, if_pos hc] at h hline
      omega
    · rw [ih _ (by simpa [advance, hc] using h)]
      simp [advance, hc, Counting.length, Nat.add_assoc]

variable (text : List Char) {i j : Nat}

/-- Moving over more text does not lower an offset. -/
theorem after_take_offset_le (h : i ≤ j) :
    (after counting (text.take i)).offset ≤ (after counting (text.take j)).offset := by
  rw [← List.take_append_drop i (text.take j), List.take_take, Nat.min_eq_left h, after, after,
    advanceBy_append, advanceBy_offset _ (advanceBy _ _ _)]
  exact Nat.le_add_right _ _

/-- Moving over more text does not lead to an earlier line. -/
theorem after_take_line_le (h : i ≤ j) :
    (after counting (text.take i)).line ≤ (after counting (text.take j)).line := by
  rw [← List.take_append_drop i (text.take j), List.take_take, Nat.min_eq_left h, after, after,
    advanceBy_append, advanceBy_line _ (advanceBy _ _ _)]
  exact Nat.le_add_right _ _

theorem after_take_succ {c : Char} (h : text[i]? = some c) :
    after counting (text.take (i + 1)) = (after counting (text.take i)).advance counting c := by
  rw [List.take_add_one, h, Option.toList_some, after, advanceBy_append]
  rfl

end Position

end Diagram
