import Diagram.Proofs.Position
import Diagram.Report
import Mathlib.Data.List.Forall2

/-!
Labels on a text. A diagnostic may come from any text, so its range need not fit the one that the
report is shown with; the label does. Where the range does fit, the label is on exactly the bytes of
its characters, in whichever units the range is counted. Main statement: `reports_exact`.
-/
namespace Diagram

theorem Counting.length_bytes (cs : List Char) :
    Counting.length .bytes cs = (String.ofList cs).utf8ByteSize := by
  induction cs with
  | nil => simp [Counting.length]
  | cons c cs ih =>
    rw [String.ofList_cons, String.utf8ByteSize_append, String.utf8ByteSize_singleton, ← ih]
    rfl

/-- The offset lies between two characters of the text, or at one of its ends. -/
def IsBoundary (text : String) (offset : Nat) : Prop :=
  (⟨offset⟩ : String.Pos.Raw).IsValid text

theorem isBoundary_of_append {text : String} {before after : List Char}
    (h : text.toList = before ++ after) : IsBoundary text (Counting.length .bytes before) := by
  have htext : text = String.ofList before ++ String.ofList after := by
    rw [← String.ofList_append, ← h, String.ofList_toList]
  refine String.Pos.Raw.isValid_iff_exists_append.mpr ⟨_, _, htext, ?_⟩
  rw [Counting.length_bytes]
  rfl

/-! ## Offsets -/

/-- Counting back from code units stops between two characters. -/
theorem byteOffsetOfUnits_eq (offset : Nat) (cs : List Char) :
    ∃ before after, cs = before ++ after ∧
      byteOffsetOfUnits offset cs = Counting.length .bytes before := by
  induction cs generalizing offset with
  | nil => exact ⟨[], [], rfl, rfl⟩
  | cons c cs ih =>
    rw [byteOffsetOfUnits]
    split
    · exact ⟨[], c :: cs, rfl, rfl⟩
    · obtain ⟨before, after, rfl, hbefore⟩ := ih (offset - Counting.size .units16 c)
      exact ⟨c :: before, after, rfl, by rw [hbefore]; rfl⟩

theorem byteOffset_le (counting : Counting) (offset : Nat) (cs : List Char) :
    byteOffset counting offset cs ≤ Counting.length .bytes cs := by
  cases counting with
  | bytes => exact Nat.min_le_right _ _
  | units16 =>
    obtain ⟨before, after, rfl, hbefore⟩ := byteOffsetOfUnits_eq offset cs
    rw [byteOffset, hbefore, Counting.length_append]
    exact Nat.le_add_right _ _

theorem byteOffset_units16_isBoundary (offset : Nat) (text : String) :
    IsBoundary text (byteOffset .units16 offset text.toList) := by
  obtain ⟨before, after, htext, hbefore⟩ := byteOffsetOfUnits_eq offset text.toList
  rw [byteOffset, hbefore]
  exact isBoundary_of_append htext

/-- What is counted up to a character and back is the number of bytes up to that character. -/
theorem byteOffset_length (counting : Counting) (before after : List Char) :
    byteOffset counting (counting.length before) (before ++ after) =
      Counting.length .bytes before := by
  cases counting with
  | bytes =>
    rw [byteOffset, Counting.length_append]
    exact Nat.min_eq_left (Nat.le_add_right _ _)
  | units16 =>
    rw [byteOffset]
    induction before with
    | nil => cases after <;> simp [byteOffsetOfUnits, Counting.length]
    | cons c before ih =>
      have hpos : Counting.length .units16 (c :: before) ≠ 0 :=
        Nat.ne_of_gt (Counting.length_pos .units16 (List.cons_ne_nil c before))
      rw [List.cons_append, byteOffsetOfUnits, if_neg hpos, Counting.length,
        Nat.add_sub_cancel_left, ih]
      rfl

theorem byteOffset_after (counting : Counting) (cs : List Char) (i : Nat) :
    byteOffset counting (Position.after counting (cs.take i)).offset cs =
      Counting.length .bytes (cs.take i) := by
  have hoffset : (Position.after counting (cs.take i)).offset = counting.length (cs.take i) := by
    rw [Position.after, Position.advanceBy_offset]
    exact Nat.zero_add _
  have hback := byteOffset_length counting (cs.take i) (cs.drop i)
  rwa [List.take_append_drop, ← hoffset] at hback

/-! ## Labels -/

variable (d : Diagnostic) (counting : Counting)

theorem label_stop (cs : List Char) :
    (d.label counting cs).offset + (d.label counting cs).length =
      max (byteOffset counting d.range.stop.offset cs)
        (byteOffset counting d.range.start.offset cs) := by
  simp only [Diagnostic.label]
  omega

theorem label_within (text : String) :
    (d.label counting text.toList).offset + (d.label counting text.toList).length ≤
      text.utf8ByteSize := by
  have hsize : Counting.length .bytes text.toList = text.utf8ByteSize := by
    rw [Counting.length_bytes, String.ofList_toList]
  rw [label_stop, ← hsize]
  exact Nat.max_le.mpr ⟨byteOffset_le _ _ _, byteOffset_le _ _ _⟩

theorem label_isBoundary (text : String) :
    IsBoundary text (d.label .units16 text.toList).offset ∧
      IsBoundary text
        ((d.label .units16 text.toList).offset + (d.label .units16 text.toList).length) := by
  refine ⟨byteOffset_units16_isBoundary _ text, ?_⟩
  rw [label_stop]
  rcases Nat.le_total (byteOffset .units16 d.range.stop.offset text.toList)
      (byteOffset .units16 d.range.start.offset text.toList) with h | h
  · rw [Nat.max_eq_right h]
    exact byteOffset_units16_isBoundary _ text
  · rw [Nat.max_eq_left h]
    exact byteOffset_units16_isBoundary _ text

/-- The label of a range between two characters of the text. -/
theorem label_of_range {cs : List Char} {i j : Nat} (h : i ≤ j)
    (hstart : d.range.start = Position.after counting (cs.take i))
    (hstop : d.range.stop = Position.after counting (cs.take j)) :
    d.label counting cs = ⟨(String.ofList (cs.take i)).utf8ByteSize,
      (String.ofList ((cs.take j).drop i)).utf8ByteSize, d.code.description, true⟩ := by
  have hsplit : Counting.length .bytes (cs.take j) =
      Counting.length .bytes (cs.take i) + Counting.length .bytes ((cs.take j).drop i) := by
    rw [← Counting.length_append]
    conv_lhs => rw [← List.take_append_drop i (cs.take j), List.take_take, Nat.min_eq_left h]
  simp only [Diagnostic.label, hstart, hstop, byteOffset_after, hsplit, ← Counting.length_bytes,
    Label.mk.injEq, true_and, and_true]
  omega

/-- **Reports**: a diagram with something wrong in it has one report for each diagnostic, the
failure of its source first. Each has one label, which lies within the text and, for ranges in code
units, starts and stops between two characters. A range between the characters `i` and `j` of the
text is labelled with the bytes of these characters, whichever units it is counted in. -/
theorem reports_exact (text : String) :
    (∀ (error : ParseError) (utf16 : Bool),
      List.Forall₂ (fun d report =>
          ∃ label, report.labels = [label] ∧
            label = Diagnostic.label d (if utf16 then .units16 else .bytes) text.toList ∧
            report.text = d.display ∧ report.code = some d.code.name ∧
            label.offset + label.length ≤ text.utf8ByteSize ∧
            (utf16 = true → IsBoundary text label.offset ∧
              IsBoundary text (label.offset + label.length)))
        (error.fatal.toList ++ error.diagnostics) (Failure.diagram error text utf16).reports) ∧
    ∀ (i j : Nat), i ≤ j → j ≤ text.length → ∀ (d : Diagnostic) (counting : Counting),
      d.range.start = Position.after counting (text.toList.take i) →
      d.range.stop = Position.after counting (text.toList.take j) →
      d.label counting text.toList = ⟨(String.ofList (text.toList.take i)).utf8ByteSize,
        (String.ofList ((text.toList.take j).drop i)).utf8ByteSize, d.code.description, true⟩ := by
  constructor
  · intro error utf16
    rw [Failure.reports, ParseError.toList, List.forall₂_map_right_iff, List.forall₂_same]
    intro d _
    refine ⟨_, rfl, rfl, rfl, rfl, label_within d _ text, ?_⟩
    rintro rfl
    exact label_isBoundary d text
  · intro i j h _ d counting hstart hstop
    exact label_of_range d counting h hstart hstop

/-- The last character of a text with characters of one, two and four bytes, in code units. -/
theorem reports_exact_astral :
    let text := "😀: é"
    let d : Diagnostic := .of .missingValue ⟨"t.d2", .after .units16 "😀: ".toList,
      .after .units16 text.toList⟩
    3 ≤ 4 ∧ 4 ≤ text.length ∧ d.range.start = ⟨0, 4, 4⟩ ∧
      (d.label .units16 text.toList).offset = 6 ∧ (d.label .units16 text.toList).length = 2 := by
  intro text d
  have hlabel := (reports_exact text).2 3 4 (by decide) (by decide) d .units16
    (by decide) (by decide)
  refine ⟨by decide, by decide, by decide, ?_, ?_⟩ <;> rw [hlabel] <;> decide

end Diagram
