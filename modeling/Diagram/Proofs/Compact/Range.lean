import Diagram.Proofs.Compact.Numeral
import Diagram.Proofs.Position

/-!
Positions and ranges as they may be written in compact form: the parts that a text is put together
from. A text is read as a range exactly when it is put together so, its parts are then the only
ones (`Range.Written.text_injective`), and writing the range again normalises each numeral.
-/
namespace Diagram

/-- A result behind another one needs both. -/
theorem ok_of_bind {ε α β : Type} {x : Except ε α} {f : α → Except ε β} {b : β}
    (h : x >>= f = .ok b) : ∃ a, x = .ok a ∧ f a = .ok b := by
  cases x with
  | error e => exact nomatch h
  | ok a => exact ⟨a, rfl, h⟩

namespace Position

theorem field_eq_ok {cs : List Char} {n : Nat} :
    field cs = .ok n ↔ ∃ m : Numeral, m.text = cs ∧ m.value = n := by
  rw [← numeral?_eq_some, field]
  cases numeral? cs <;> simp

@[simp] theorem field_text (n : Numeral) : field n.text = .ok n.value :=
  field_eq_ok.mpr ⟨n, rfl, rfl⟩

/-- A position as it is written: three numerals with colons between them. -/
structure Written where
  line : Numeral
  column : Numeral
  offset : Numeral

namespace Written

def text (w : Written) : List Char :=
  w.line.text ++ ':' :: (w.column.text ++ ':' :: w.offset.text)

def position (w : Written) : Position :=
  ⟨w.line.value, w.column.value, w.offset.value⟩

def normal (w : Written) : Written :=
  ⟨w.line.normal, w.column.normal, w.offset.normal⟩

/-- How a position is written. -/
def ofPosition (p : Position) (h : p.Fits) : Written :=
  ⟨.ofNat p.line h.line, .ofNat p.column h.column, .ofNat p.offset h.offset⟩

@[simp] theorem position_ofPosition (p : Position) (h : p.Fits) :
    (ofPosition p h).position = p := by
  simp [ofPosition, position]

theorem fits_position (w : Written) : w.position.Fits :=
  ⟨w.line.le_maxWord, w.column.le_maxWord, w.offset.le_maxWord⟩

theorem text_ofPosition (p : Position) (h : p.Fits) :
    (ofPosition p h).text = p.compact.toList := by
  simp [ofPosition, text, compact, Numeral.text_ofNat]

theorem text_normal (w : Written) : w.normal.text = w.position.compact.toList := by
  simp [normal, text, position, compact, Numeral.text_normal]

theorem fields_text (w : Written) :
    fields ':' w.text = [w.line.text, w.column.text, w.offset.text] := by
  have hcolon : ∀ n : Numeral, ':' ∉ n.text := fun n => n.not_mem_text (by decide) (by decide)
  rw [text, fields_append (hcolon _), fields_append (hcolon _), fields_of_not_mem (hcolon _)]

theorem not_mem_text (w : Written) {c : Char} (hc : c.isDigit = false) (hplus : c ≠ '+')
    (hcolon : c ≠ ':') : c ∉ w.text := by
  have hnumeral : ∀ n : Numeral, c ∉ n.text := fun n => n.not_mem_text hc hplus
  simp [text, hnumeral, hcolon]

theorem text_injective {w v : Written} (h : w.text = v.text) : w = v := by
  have hfields := w.fields_text
  rw [h, v.fields_text] at hfields
  simp only [List.cons.injEq, and_true] at hfields
  obtain ⟨hline, hcolumn, hoffset⟩ := hfields
  cases w
  cases v
  simp only [Written.mk.injEq]
  exact ⟨Numeral.text_injective hline.symm, Numeral.text_injective hcolumn.symm,
    Numeral.text_injective hoffset.symm⟩

end Written

theorem ofCompact_text (w : Written) : ofCompact w.text = .ok w.position := by
  simp only [ofCompact, w.fields_text, field_text]
  rfl

/-- What is read as a position is a position as it is written. -/
theorem written_of_ofCompact {cs : List Char} {p : Position} (h : ofCompact cs = .ok p) :
    ∃ w : Written, w.text = cs ∧ w.position = p := by
  rw [ofCompact] at h
  split at h
  · next line column offset hfields =>
    obtain ⟨_, hline, h⟩ := ok_of_bind h
    obtain ⟨_, hcolumn, h⟩ := ok_of_bind h
    obtain ⟨_, hoffset, h⟩ := ok_of_bind h
    obtain ⟨l, rfl, rfl⟩ := field_eq_ok.mp hline
    obtain ⟨k, rfl, rfl⟩ := field_eq_ok.mp hcolumn
    obtain ⟨o, rfl, rfl⟩ := field_eq_ok.mp hoffset
    refine ⟨⟨l, k, o⟩, ?_, Except.ok.inj h⟩
    rw [← joinWith_fields ':' cs, hfields]
    rfl
  · exact nomatch h

end Position

namespace Range

/-- The positions of the range can be held. -/
structure Fits (r : Range) : Prop where
  start : r.start.Fits
  stop : r.stop.Fits

/-- A range as it is written: any label, a comma, and two positions with a dash between them. -/
structure Written where
  label : String
  start : Position.Written
  stop : Position.Written

namespace Written

def text (w : Written) : String :=
  w.label ++ "," ++ String.ofList w.start.text ++ "-" ++ String.ofList w.stop.text

def range (w : Written) : Range :=
  ⟨w.label, w.start.position, w.stop.position⟩

/-- The range with each numeral normalised. -/
def normal (w : Written) : Written :=
  ⟨w.label, w.start.normal, w.stop.normal⟩

/-- How a range is written. -/
def ofRange (r : Range) (h : r.Fits) : Written :=
  ⟨r.label, .ofPosition r.start h.start, .ofPosition r.stop h.stop⟩

@[simp] theorem range_ofRange (r : Range) (h : r.Fits) : (ofRange r h).range = r := by
  simp [ofRange, range]

theorem fits_range (w : Written) : w.range.Fits :=
  ⟨w.start.fits_position, w.stop.fits_position⟩

theorem text_ofRange (r : Range) (h : r.Fits) : (ofRange r h).text = r.compact := by
  simp [ofRange, text, compact, Position.Written.text_ofPosition]

/-- Writing what has been read normalises each numeral. -/
theorem text_normal (w : Written) : w.normal.text = w.range.compact := by
  simp [normal, text, range, compact, Position.Written.text_normal]

theorem toList_text (w : Written) :
    w.text.toList = (w.label.toList ++ ',' :: w.start.text) ++ '-' :: w.stop.text := by
  simp [text]

/-- The last dash stands between the positions, as there is none in the second. -/
theorem cutLast_dash (w : Written) :
    cutLast '-' w.text.toList = some (w.label.toList ++ ',' :: w.start.text, w.stop.text) := by
  rw [toList_text]
  exact cutLast_append _ (w.stop.not_mem_text (by decide) (by decide) (by decide))

/-- The last comma before it ends the label, as there is none in the first position. -/
theorem cutLast_comma (w : Written) :
    cutLast ',' (w.label.toList ++ ',' :: w.start.text) = some (w.label.toList, w.start.text) :=
  cutLast_append _ (w.start.not_mem_text (by decide) (by decide) (by decide))

theorem text_injective {w v : Written} (h : w.text = v.text) : w = v := by
  have hdash := w.cutLast_dash
  rw [h, v.cutLast_dash, Option.some.injEq, Prod.mk.injEq] at hdash
  obtain ⟨hrest, hstop⟩ := hdash
  have hcomma := w.cutLast_comma
  rw [← hrest, v.cutLast_comma, Option.some.injEq, Prod.mk.injEq, String.toList_inj] at hcomma
  obtain ⟨hlabel, hstart⟩ := hcomma
  cases w
  cases v
  simp only [mk.injEq]
  exact ⟨hlabel.symm, Position.Written.text_injective hstart.symm,
    Position.Written.text_injective hstop.symm⟩

end Written

theorem ofCompact_text (w : Written) : ofCompact w.text = .ok w.range := by
  simp only [ofCompact, w.cutLast_dash, w.cutLast_comma, Position.ofCompact_text,
    String.ofList_toList]
  rfl

/-- What is read as a range is a range as it is written. -/
theorem written_of_ofCompact {s : String} {r : Range} (h : ofCompact s = .ok r) :
    ∃ w : Written, w.text = s ∧ w.range = r := by
  rw [ofCompact] at h
  split at h
  · exact nomatch h
  · next rest stop hdash =>
    split at h
    · exact nomatch h
    · next label start hcomma =>
      obtain ⟨_, hstart, h⟩ := ok_of_bind h
      obtain ⟨_, hstop, h⟩ := ok_of_bind h
      obtain ⟨p, rfl, rfl⟩ := Position.written_of_ofCompact hstart
      obtain ⟨q, rfl, rfl⟩ := Position.written_of_ofCompact hstop
      refine ⟨⟨String.ofList label, p, q⟩, ?_, Except.ok.inj h⟩
      rw [← String.toList_inj, Written.toList_text, append_of_cutLast hdash,
        append_of_cutLast hcomma, String.toList_ofList]

theorem fits_of_ofCompact {s : String} {r : Range} (h : ofCompact s = .ok r) : r.Fits := by
  obtain ⟨w, -, rfl⟩ := written_of_ofCompact h
  exact w.fits_range

/-- Reading what a range is written as gives that range. -/
theorem ofCompact_compact {r : Range} (h : r.Fits) : ofCompact r.compact = .ok r := by
  rw [← Written.text_ofRange r h, ofCompact_text, Written.range_ofRange]

/-- **The compact form is exact.** Every range whose fields can be held is read back from the text
it is written as. A text is read if and only if it is a label, a comma and two positions with a
dash between them; the parts are then determined by the text, they are what is read, and writing
them again normalises each numeral. -/
theorem compact_exact :
    (∀ r : Range, r.Fits → ofCompact r.compact = .ok r) ∧
    ∀ s : String, ((∃ r, ofCompact s = .ok r) ↔ ∃ w : Written, w.text = s) ∧
      ∀ w : Written, w.text = s → (∀ v : Written, v.text = s → v = w) ∧
        ofCompact s = .ok w.range ∧ w.range.compact = w.normal.text := by
  refine ⟨fun r h => ofCompact_compact h, fun s => ⟨⟨?_, ?_⟩, ?_⟩⟩
  · rintro ⟨r, h⟩
    obtain ⟨w, hw, -⟩ := written_of_ofCompact h
    exact ⟨w, hw⟩
  · rintro ⟨w, rfl⟩
    exact ⟨w.range, ofCompact_text w⟩
  · rintro w rfl
    exact ⟨fun v hv => Written.text_injective hv, ofCompact_text w, w.text_normal.symm⟩

/-- A label that holds every separator, and a text of the same range with a sign and zeros. -/
theorem compact_exact_separators :
    let r : Range := ⟨"a,1:2-3", ⟨7, 0, 10⟩, ⟨8, 1, 12⟩⟩
    (r.Fits ∧ ofCompact r.compact = .ok r) ∧ ofCompact "a,1:2-3,+07:0:010-8:1:12" = .ok r := by
  intro r
  have hfits : r.Fits := ⟨⟨by decide, by decide, by decide⟩, ⟨by decide, by decide, by decide⟩⟩
  let w : Written := ⟨"a,1:2-3",
    ⟨⟨true, ['0', '7'], by decide, by simp, by decide⟩,
      ⟨false, ['0'], by decide, by simp, by decide⟩,
      ⟨false, ['0', '1', '0'], by decide, by simp, by decide⟩⟩,
    ⟨⟨false, ['8'], by decide, by simp, by decide⟩,
      ⟨false, ['1'], by decide, by simp, by decide⟩,
      ⟨false, ['1', '2'], by decide, by simp, by decide⟩⟩⟩
  have hw : w.text = "a,1:2-3,+07:0:010-8:1:12" := by decide
  exact ⟨⟨hfits, compact_exact.1 r hfits⟩, ((compact_exact.2 _).2 w hw).2.1⟩

end Range

end Diagram
