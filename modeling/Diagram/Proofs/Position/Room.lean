import Diagram.Proofs.Position.Order

/-!
Room for positions. Stepping forward fails where a field would have to hold a number that is too
large. Where a position has room for a text, it leads to where plain arithmetic does, so that it is
exact (`stepForwardBy_exact`). In a text that is no longer than a field can say, there always is
room (`stepForwardBy_after`).
-/
namespace Diagram.Position

variable {counting : Counting} {p : Position} {c : Char} {cs : List Char}

/-! ## One character -/

theorem addToField_of_le {n size : Nat} (h : n + size ≤ maxWord) :
    addToField n size = .ok (n + size) :=
  if_pos h

theorem addToField_of_not_le {n size : Nat} (h : ¬n + size ≤ maxWord) :
    addToField n size = .error .overflow :=
  if_neg h

theorem stepForward_of_fits (h : (p.advance counting c).Fits) :
    p.stepForward counting c = .ok (p.advance counting c) := by
  obtain ⟨hline, hcolumn, hoffset⟩ := h
  by_cases hc : c = '\n'
  · simp only [advance, if_pos hc] at hline hoffset ⊢
    simp only [stepForward, if_pos hc, addToField_of_le hline, addToField_of_le hoffset]
    rfl
  · simp only [advance, if_neg hc] at hcolumn hoffset ⊢
    simp only [stepForward, if_neg hc, addToField_of_le hcolumn, addToField_of_le hoffset]
    rfl

theorem stepForward_of_not_fits (hp : p.Fits) (h : ¬(p.advance counting c).Fits) :
    p.stepForward counting c = .error .overflow := by
  by_cases hc : c = '\n'
  · simp only [advance, if_pos hc] at h
    simp only [stepForward, if_pos hc]
    by_cases hline : p.line + 1 ≤ maxWord
    · have hoffset : ¬p.offset + counting.size c ≤ maxWord := fun hoffset =>
        h ⟨hline, Nat.zero_le _, hoffset⟩
      rw [addToField_of_le hline, addToField_of_not_le hoffset]
      rfl
    · rw [addToField_of_not_le hline]
      rfl
  · simp only [advance, if_neg hc] at h
    simp only [stepForward, if_neg hc]
    by_cases hcolumn : p.column + counting.size c ≤ maxWord
    · have hoffset : ¬p.offset + counting.size c ≤ maxWord := fun hoffset =>
        h ⟨hp.line, hcolumn, hoffset⟩
      rw [addToField_of_le hcolumn, addToField_of_not_le hoffset]
      rfl
    · rw [addToField_of_not_le hcolumn]
      rfl

/-! ## Stretches of text -/

/-- The fields can hold all positions in a text behind this one: its last line, its end, and the end
of its first line. The columns of all other lines start at zero. -/
structure HasRoom (counting : Counting) (p : Position) (cs : List Char) : Prop where
  line : p.line + cs.count '\n' ≤ maxWord
  column : p.column + counting.length (cs.takeWhile (· ≠ '\n')) ≤ maxWord
  offset : p.offset + counting.length cs ≤ maxWord

theorem HasRoom.fits (h : p.HasRoom counting cs) : p.Fits where
  line := Nat.le_trans (Nat.le_add_right _ _) h.line
  column := Nat.le_trans (Nat.le_add_right _ _) h.column
  offset := Nat.le_trans (Nat.le_add_right _ _) h.offset

theorem hasRoom_nil : p.HasRoom counting [] ↔ p.Fits :=
  ⟨HasRoom.fits, fun h => ⟨h.line, h.column, h.offset⟩⟩

theorem hasRoom_newline (hp : p.Fits) : p.HasRoom counting ('\n' :: cs) ↔
    (p.advance counting '\n').HasRoom counting cs := by
  -- a column behind the newline is no larger than the offset there, which there is room for
  have hfirst : counting.length (cs.takeWhile (· ≠ '\n')) ≤ counting.length cs :=
    counting.length_le_of_prefix (List.takeWhile_prefix _)
  rw [advance, if_pos rfl]
  constructor
  · rintro ⟨hline, -, hoffset⟩
    rw [List.count_cons_self] at hline
    rw [Counting.length] at hoffset
    refine ⟨?_, ?_, ?_⟩ <;> dsimp only <;> omega
  · rintro ⟨hline, -, hoffset⟩
    dsimp only at hline hoffset
    refine ⟨?_, by simpa [Counting.length] using hp.column, ?_⟩
    · rw [List.count_cons_self]
      omega
    · rw [Counting.length]
      omega

theorem hasRoom_cons_of_ne (hc : c ≠ '\n') : p.HasRoom counting (c :: cs) ↔
    (p.advance counting c).HasRoom counting cs := by
  have hcount : (c :: cs).count '\n' = cs.count '\n' := List.count_cons_of_ne hc
  have hfirst : (c :: cs).takeWhile (· ≠ '\n') = c :: cs.takeWhile (· ≠ '\n') :=
    List.takeWhile_cons_of_pos (by simpa using hc)
  rw [advance, if_neg hc]
  constructor
  · rintro ⟨hline, hcolumn, hoffset⟩
    rw [hcount] at hline
    rw [hfirst, Counting.length, ← Nat.add_assoc] at hcolumn
    rw [Counting.length, ← Nat.add_assoc] at hoffset
    exact ⟨hline, hcolumn, hoffset⟩
  · rintro ⟨hline, hcolumn, hoffset⟩
    refine ⟨hcount ▸ hline, ?_, ?_⟩
    · rw [hfirst, Counting.length, ← Nat.add_assoc]
      exact hcolumn
    · rw [Counting.length, ← Nat.add_assoc]
      exact hoffset

/-- There is room for a text if there is room for the rest of it behind its first character. -/
theorem hasRoom_cons (hp : p.Fits) :
    p.HasRoom counting (c :: cs) ↔ (p.advance counting c).HasRoom counting cs := by
  by_cases hc : c = '\n'
  · subst hc
    exact hasRoom_newline hp
  · exact hasRoom_cons_of_ne hc

/-- Where there is room, stepping forward leads to where plain arithmetic does. -/
theorem stepForwardBy_of_hasRoom (h : p.HasRoom counting cs) :
    p.stepForwardBy counting cs = .ok (p.advanceBy counting cs) := by
  induction cs generalizing p with
  | nil => rfl
  | cons c cs ih =>
    have hrest := (hasRoom_cons h.fits).mp h
    rw [stepForwardBy_cons, stepForward_of_fits hrest.fits]
    exact ih hrest

theorem stepForwardBy_of_not_hasRoom (hp : p.Fits) (h : ¬p.HasRoom counting cs) :
    p.stepForwardBy counting cs = .error .overflow := by
  induction cs generalizing p with
  | nil => exact absurd (hasRoom_nil.mpr hp) h
  | cons c cs ih =>
    rw [stepForwardBy_cons]
    by_cases hfits : (p.advance counting c).Fits
    · rw [stepForward_of_fits hfits]
      exact ih hfits fun hrest => h ((hasRoom_cons hp).mpr hrest)
    · rw [stepForward_of_not_fits hp hfits]
      rfl

/-- Where the end of a text can be held, so can all positions in it: there, stepping forward from
its start leads to where the text is read. -/
theorem stepForwardBy_after {text : List Char} (h : counting.length text ≤ maxWord) (i : Nat) :
    start.stepForwardBy counting (text.take i) = .ok (after counting (text.take i)) := by
  have hlength := counting.length_le_of_prefix (List.take_prefix i text)
  have hfirst := counting.length_le_of_prefix (List.takeWhile_prefix (l := text.take i) (· ≠ '\n'))
  have hlines : (text.take i).count '\n' ≤ counting.length (text.take i) :=
    Nat.le_trans List.count_le_length (counting.le_length _)
  refine stepForwardBy_of_hasRoom ⟨?_, ?_, ?_⟩ <;> simp only [start] <;> omega

/-- **Exact positions**: stepping forward over two texts one after the other is stepping over both
at once. It fails where there is no room for the text. Where there is, it takes the offset along by
the length of the text and the line by its newlines; the column is what stands behind the last
newline, or what stands there is added to it. It leads to a later position unless the text is empty,
and stepping back over text without newlines undoes it. -/
theorem stepForwardBy_exact (counting : Counting) {p : Position} (hp : p.Fits) (u v : List Char) :
    p.stepForwardBy counting (u ++ v) =
      (p.stepForwardBy counting u >>= fun q => q.stepForwardBy counting v) ∧
    (¬p.HasRoom counting u → p.stepForwardBy counting u = .error .overflow) ∧
    (p.HasRoom counting u → ∃ q, p.stepForwardBy counting u = .ok q ∧
      q.offset = p.offset + counting.length u ∧
      q.line = p.line + u.count '\n' ∧
      q.column =
        (match cutLast '\n' u with
        | some (_, rest) => counting.length rest
        | none => p.column + counting.length u) ∧
      (u ≠ [] → p.order q = .lt) ∧
      ('\n' ∉ u → q.stepBackBy counting u = .ok p)) :=
  ⟨List.foldlM_append, stepForwardBy_of_not_hasRoom hp, fun hroom =>
    ⟨p.advanceBy counting u, stepForwardBy_of_hasRoom hroom, advanceBy_offset counting p u,
      advanceBy_line counting p u, advanceBy_column_eq counting p u, order_advanceBy counting p,
      stepBackBy_advanceBy counting p⟩⟩

/-- A character outside of the plane that code units cover, and a word behind it. -/
theorem stepForwardBy_exact_astral :
    let p : Position := ⟨7, 100, 1000⟩
    (p.Fits ∧ p.HasRoom .units16 "😀é".toList ∧ "😀é".toList ≠ [] ∧ '\n' ∉ "😀é".toList) ∧
    ∃ q, p.stepForwardBy .units16 "😀é".toList = .ok q ∧ p.order q = .lt ∧
      q.stepBackBy .units16 "😀é".toList = .ok p := by
  intro p
  have hfits : p.Fits := ⟨by decide, by decide, by decide⟩
  have hroom : p.HasRoom .units16 "😀é".toList := ⟨by decide, by decide, by decide⟩
  have hne : "😀é".toList ≠ [] := by decide
  have hline : '\n' ∉ "😀é".toList := by decide
  obtain ⟨-, -, hexact⟩ := stepForwardBy_exact .units16 hfits "😀é".toList []
  obtain ⟨q, hstep, -, -, -, hlater, hback⟩ := hexact hroom
  exact ⟨⟨hfits, hroom, hne, hline⟩, q, hstep, hlater hne, hback hline⟩

/-- There is no room behind the largest offset. -/
theorem stepForwardBy_overflows :
    ¬∀ (counting : Counting) (p : Position), p.Fits → ∀ u : List Char, ∃ q,
      p.stepForwardBy counting u = .ok q ∧ q.offset = p.offset + counting.length u := by
  intro h
  obtain ⟨q, hstep, -⟩ := h .bytes ⟨0, 0, maxWord⟩ ⟨by decide, by decide, by decide⟩ ['a']
  have hfails : stepForwardBy .bytes ⟨0, 0, maxWord⟩ ['a'] = .error .overflow := rfl
  rw [hfails] at hstep
  cases hstep

end Diagram.Position
