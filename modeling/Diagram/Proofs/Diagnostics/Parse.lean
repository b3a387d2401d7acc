import Diagram.Proofs.Diagnostics.Container
import Diagram.Proofs.Sound.Parse

/-!
Where diagnostics point. Every diagnostic of a source has a range of the text that was delivered,
from one place to a later one, with one exception: a missing value is reported one column and one
offset in front of the place where it was looked for. If that is behind a newline, as it is where
a backslash continues the line, or behind a blank that takes several units, there is no such place.
-/
namespace Diagram

variable {label : String} {counting : Counting} {text : List Char}

/-- The range goes from one place of the text to a later one. -/
def Range.LiesIn (label : String) (counting : Counting) (text : List Char) (r : Range) : Prop :=
  ∃ i j, i ≤ j ∧ j ≤ text.length ∧ r = rangeBetween label counting text i j

/-- The range starts a colon's width in front of where it stops, but what stands there is a newline
or takes more units than a colon. -/
def Range.Misplaced (label : String) (counting : Counting) (text : List Char) (r : Range) : Prop :=
  ∃ k c, text[k]? = some c ∧ (c = '\n' ∨ 1 < counting.size c) ∧
    r = ⟨label, (Position.after counting (text.take (k + 1))).before counting ':',
      .after counting (text.take (k + 1))⟩

/-- A colon takes one unit. -/
theorem Counting.size_colon (counting : Counting) : counting.size ':' = 1 := by
  cases counting <;> rfl

/-- A misplaced range starts at no place of the text. -/
theorem Range.Misplaced.not_liesIn {r : Range} (h : r.Misplaced label counting text) :
    ¬r.LiesIn label counting text := by
  rintro ⟨i, j, hij, hj, hr⟩
  obtain ⟨k, c, hk, hc, rfl⟩ := h
  have hsucc := Position.after_take_succ counting text hk
  have hsize := counting.size_pos c
  have hoffset := congrArg (fun r : Range => r.start.offset) hr
  have hline := congrArg (fun r : Range => r.start.line) hr
  simp only [rangeBetween, Position.before, counting.size_colon] at hoffset hline
  rcases Nat.lt_or_ge k i with hki | hik
  · have hbehind := Position.after_take_offset_le counting text hki
    rw [← hoffset, hsucc] at hbehind
    unfold Position.advance at hbehind
    split at hbehind <;> simp only at hbehind <;> omega
  · have hfront := Position.after_take_offset_le counting text hik
    have hlines := Position.after_take_line_le counting text hik
    rw [hsucc] at hoffset hline
    by_cases hnewline : c = '\n'
    · simp only [Position.advance, if_pos hnewline] at hline
      omega
    · have hwide := hc.resolve_left hnewline
      simp only [Position.advance, if_neg hnewline] at hoffset
      omega

/-- Stepping back over a colon leads in front of a character that is as wide. -/
theorem Position.before_colon (counting : Counting) {text : List Char} {k : Nat} {c : Char}
    (hk : text[k]? = some c) (hc : c ≠ '\n') (hsize : counting.size c = 1) :
    (after counting (text.take (k + 1))).before counting ':' = after counting (text.take k) := by
  rw [after_take_succ counting text hk, before, counting.size_colon, ← hsize]
  exact counting.meter_lawful.before_advance _ c hc

/-- A colon's width in front of a place of the text there is another one, or the range up to there
is misplaced. -/
theorem Range.liesIn_or_misplaced (label : String) (counting : Counting)
    (text : List Char) {j : Nat} (hj : j ≤ text.length) :
    let stop := Position.after counting (text.take j)
    Range.LiesIn label counting text ⟨label, stop.before counting ':', stop⟩ ∨
      Range.Misplaced label counting text ⟨label, stop.before counting ':', stop⟩ := by
  cases j with
  | zero =>
    refine .inl ⟨0, 0, Nat.le_refl _, hj, ?_⟩
    simp [rangeBetween, Position.before, Position.after, Position.start]
  | succ k =>
    obtain ⟨c, hk⟩ : ∃ c, text[k]? = some c := ⟨_, List.getElem?_eq_getElem hj⟩
    by_cases hc : c = '\n' ∨ 1 < counting.size c
    · exact .inr ⟨k, c, hk, hc, rfl⟩
    · have hsize := counting.size_pos c
      refine .inl ⟨k, k + 1, Nat.le_succ k, hj, ?_⟩
      rw [Position.before_colon counting hk (fun h => hc (.inl h)) (by omega)]
      rfl

/-- The diagnostic of a problem that lies in the text does too, or it is a misplaced one. -/
theorem Problem.Lies.toDiagnostic {source : List Delivery} {limit : Nat} {x : Problem Position}
    (h : x.Lies (Frame.ofSource counting.meter counting.meter_lawful source limit).toTape)
    (label : String) :
    let d := x.toDiagnostic label counting
    d.range.LiesIn label counting (delivered source) ∨
      d.code = .missingValue ∧ d.range.Misplaced label counting (delivered source) := by
  cases h with
  | between hij hj => exact .inl ⟨_, _, hij, hj, rfl⟩
  | @skipped c i hi _ =>
    exact .inl ⟨i, min (i + 1) _, Nat.le_min.mpr ⟨Nat.le_succ i, hi⟩, Nat.min_le_right _ _, rfl⟩
  | atColon hj => exact (Range.liesIn_or_misplaced label counting _ hj).imp_right fun h => ⟨rfl, h⟩

/-- **Ranges of diagnostics**: every diagnostic, and that of a source that failed, has a range from
one place of the text that was delivered to a later one. It is otherwise for a missing value that is
looked for behind a newline or behind a character that takes more units than a colon, and only
there. -/
theorem parse_diagnostics_lie (label : String) (source : List Delivery) (options : Options) :
    let output := parse label source options
    ∀ d ∈ output.diagnostics ++ output.fatal.toList,
      ¬d.range.LiesIn label options.counting (delivered source) ↔
        d.code = .missingValue ∧ d.range.Misplaced label options.counting (delivered source) := by
  intro output d hd
  suffices h : d.range.LiesIn label options.counting (delivered source) ∨
      d.code = .missingValue ∧ d.range.Misplaced label options.counting (delivered source) from
    ⟨h.resolve_left, fun ⟨_, hmisplaced⟩ => hmisplaced.not_liesIn⟩
  obtain hd | hd := List.mem_append.mp hd
  · obtain ⟨x, hx, rfl⟩ := List.mem_map.mp hd
    have hstart := State.ofSource_at options.counting.meter_lawful source options.maxDepth
    obtain hnone | hlies := Grammar.fileMap_notices rfl (Grammar.value_notices rfl) [] _ hstart x
      (List.mem_reverse.mp hx)
    · cases hnone
    · exact hlies.toDiagnostic label
  · left
    rw [show output.fatal = _ from parse_fatal label source options] at hd
    obtain ⟨reason, -, rfl⟩ := Option.map_eq_some_iff.mp (Option.mem_toList.mp hd)
    exact ⟨_, _, Nat.le_refl _, Nat.le_refl _, rfl⟩

/-- The value behind a colon at the end of a source, which is missing there. -/
theorem parse_diagnostics_lie_colon :
    let source := deliveries "a:".toList
    let output := parse "" source {}
    ∃ d ∈ output.diagnostics ++ output.fatal.toList, d.code = .missingValue ∧
      (¬d.range.LiesIn "" .bytes (delivered source) ↔
        d.code = .missingValue ∧ d.range.Misplaced "" .bytes (delivered source)) := by
  intro source output
  have hfound : ∃ d ∈ output.diagnostics ++ output.fatal.toList, d.code = .missingValue := by
    decide +kernel
  obtain ⟨d, hd, hcode⟩ := hfound
  exact ⟨d, hd, hcode, parse_diagnostics_lie "" source {} d hd⟩

/-- Behind a blank that takes three bytes, a missing value is reported from inside of the blank. -/
theorem parse_misplaces_missingValue :
    let source := deliveries "a:\u3000;".toList
    let output := parse "t.d2" source {}
    ¬∀ d ∈ output.diagnostics ++ output.fatal.toList,
      d.range.LiesIn "t.d2" .bytes (delivered source) := by
  intro source output hall
  have hfound : ∃ d ∈ output.diagnostics ++ output.fatal.toList,
      d.range = ⟨"t.d2", ⟨0, 4, 4⟩, ⟨0, 5, 5⟩⟩ := by
    decide +kernel
  obtain ⟨d, hd, hrange⟩ := hfound
  have hmisplaced : d.range.Misplaced "t.d2" .bytes (delivered source) := by
    refine ⟨2, '\u3000', rfl, .inr (by decide), ?_⟩
    rw [hrange]
    decide +kernel
  exact hmisplaced.not_liesIn (hall d hd)

end Diagram
