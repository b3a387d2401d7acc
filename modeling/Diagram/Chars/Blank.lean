/-!
Blank characters: those with the Unicode property White_Space. The grammar skips them between the
parts of a statement, and unquoted text and indentation are trimmed of them.
-/
namespace Diagram

/-- A character with the Unicode property White_Space. -/
def isBlank (c : Char) : Bool :=
  let n := c.toNat
  (0x9 ≤ n && n ≤ 0xD) || n == 0x20 || n == 0x85 || n == 0xA0 || n == 0x1680 ||
    (0x2000 ≤ n && n ≤ 0x200A) || n == 0x2028 || n == 0x2029 || n == 0x202F ||
    n == 0x205F || n == 0x3000

/-- Every character that core calls white space is blank. -/
theorem isBlank_of_isWhitespace {c : Char} (h : c.isWhitespace = true) : isBlank c = true := by
  simp only [Char.isWhitespace, Bool.or_eq_true, decide_eq_true_eq] at h
  rcases h with ((h | h) | h) | h <;> subst h <;> decide

theorem ne_of_blank {b c : Char} (hb : isBlank b = true) (hc : isBlank c = false) : b ≠ c := by
  rintro rfl
  rw [hb] at hc
  cases hc

theorem ne_newline_of_visible {c : Char} (h : isBlank c = false) : c ≠ '\n' :=
  (ne_of_blank (by decide) h).symm

/-- Blanks of one line. -/
def LineBlanks (b : List Char) : Prop :=
  ∀ x ∈ b, isBlank x = true ∧ x ≠ '\n'

@[simp] theorem LineBlanks.nil : LineBlanks [] :=
  List.forall_mem_nil _

theorem LineBlanks.blank {b : List Char} (h : LineBlanks b) : ∀ x ∈ b, isBlank x = true :=
  fun x hx => (h x hx).1

theorem LineBlanks.reverse {b : List Char} (h : LineBlanks b) : LineBlanks b.reverse :=
  fun x hx => h x (List.mem_reverse.mp hx)

/-- The first character that is not blank. -/
def firstVisible (cs : List Char) : Option Char :=
  cs.find? fun c => !isBlank c

theorem firstVisible_append {b cs : List Char} {c : Char} (hb : ∀ x ∈ b, isBlank x = true)
    (hc : isBlank c = false) : firstVisible (b ++ c :: cs) = some c := by
  induction b with
  | nil => simp [firstVisible, hc]
  | cons x b ih =>
    have hx : isBlank x = true := hb x (by simp)
    rw [firstVisible, List.cons_append, List.find?_cons_of_neg (by simp [hx])]
    exact ih fun y hy => hb y (by simp [hy])

/-- The characters without the blanks at their end. -/
def trimEnd (cs : List Char) : List Char :=
  (cs.reverse.dropWhile isBlank).reverse

/-- The characters without the blanks at either end. -/
def trim (cs : List Char) : List Char :=
  trimEnd (cs.dropWhile isBlank)

end Diagram
