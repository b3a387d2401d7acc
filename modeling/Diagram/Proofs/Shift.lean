import Diagram.Diagnostic.Basic
import Diagram.Proofs.Position

/-!
Places behind text that is put in front. Whole lines in front move a place down by their number and
along by their length, and leave it in its column.
-/
namespace Diagram

section

variable (counting : Counting) (lines : List Char)

/-- The same place with `lines` in front of its text. -/
def Position.shift (p : Position) : Position :=
  ⟨p.line + lines.count '\n', p.column, p.offset + counting.length lines⟩

/-- The same range with `lines` in front of its text. -/
def Range.shift (r : Range) : Range :=
  ⟨r.label, r.start.shift counting lines, r.stop.shift counting lines⟩

/-- The same diagnostic with `lines` in front of its text. -/
def Diagnostic.shift (d : Diagnostic) : Diagnostic :=
  { d with range := d.range.shift counting lines }

end

namespace Position

variable (counting : Counting)

theorem shift_advance (lines : List Char) (p : Position) (c : Char) :
    (p.shift counting lines).advance counting c = (p.advance counting c).shift counting lines := by
  by_cases hc : c = '\n'
  · simp only [advance, shift, if_pos hc, mk.injEq, true_and]
    omega
  · simp only [advance, shift, if_neg hc, mk.injEq, true_and]
    omega

theorem shift_advanceBy (lines : List Char) (p : Position) (cs : List Char) :
    (p.shift counting lines).advanceBy counting cs =
      (p.advanceBy counting cs).shift counting lines := by
  induction cs generalizing p with
  | nil => rfl
  | cons c cs ih => rw [advanceBy_cons, advanceBy_cons, shift_advance, ih]

/-- The position behind whole lines is the start of the text, shifted. -/
theorem after_lines (u : List Char) :
    after counting (u ++ ['\n']) = start.shift counting (u ++ ['\n']) := by
  have hline := advanceBy_line counting start (u ++ ['\n'])
  have hcolumn := advanceBy_column counting start u
  have hoffset := advanceBy_offset counting start (u ++ ['\n'])
  rw [after, shift]
  exact mk.injEq .. ▸ ⟨hline, hcolumn, hoffset⟩

/-- **Lines in front**: the position behind whole lines and more text is the one behind that text,
shifted. -/
theorem after_append_line (u v : List Char) :
    after counting (u ++ '\n' :: v) = (after counting v).shift counting (u ++ ['\n']) := by
  have hlines := after_lines counting u
  have hsplit : u ++ '\n' :: v = (u ++ ['\n']) ++ v := by simp
  rw [hsplit, after, advanceBy_append]
  show (after counting (u ++ ['\n'])).advanceBy counting v = _
  rw [hlines, shift_advanceBy]
  rfl

/-- Stepping back commutes with lines in front, if it does not go back behind the start of the
text. -/
theorem shift_before (lines : List Char) {p : Position} {c : Char}
    (h : counting.size c ≤ p.offset) :
    (p.shift counting lines).before counting c = (p.before counting c).shift counting lines := by
  simp only [before, shift, mk.injEq, true_and]
  omega

end Position

end Diagram
