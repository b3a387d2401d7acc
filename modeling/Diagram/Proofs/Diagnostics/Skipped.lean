import Diagram.Proofs.Diagnostics.Parse

/-!
Items of sequences that are missing. One character is skipped for each, and the diagnostic goes over
that character and quotes the one that the item starts with. They are the same for a brace. A
backslash is consumed in search of a value, with the gap that it starts, so that the character which
is skipped then stands behind the gap: it may be the bracket that closes the sequence.
-/
namespace Diagram

theorem Cause.eq_invalidItemStart {cause : Cause} (h : cause.code = .invalidArrayValue) :
    ∃ c, cause = .invalidItemStart c := by
  cases cause with
  | invalidItemStart c => exact ⟨c, rfl⟩
  | _ => cases h

/-- The problem of an item that is missing goes over what is skipped for it. -/
theorem Problem.Lies.skips {t : Tape Position} {x : Problem Position} (h : x.Lies t)
    (hcode : x.cause.code = .invalidArrayValue) : ∃ c i, Skips t.text c i ∧
      x = ⟨.invalidItemStart c, .place (t.mark i), t.mark (min (i + 1) t.text.length)⟩ := by
  cases h with
  | between _ _ hcause =>
    obtain ⟨c, hc⟩ := Cause.eq_invalidItemStart hcode
    exact absurd hc (hcause c)
  | atColon _ => cases hcode
  | skipped _ hskips => exact ⟨_, _, hskips, rfl⟩

/-- **Recovery in sequences**: every diagnostic of an item that is missing goes over the one
character that it quotes, a closing brace, or it quotes a backslash and goes over the character that
stands behind the gap which the backslash starts, if any does. -/
theorem parse_skips (label : String) (source : List Delivery) (options : Options) :
    let text := delivered source
    ∀ d ∈ (parse label source options).diagnostics, d.code = .invalidArrayValue →
      (∃ i, text[i]? = some '}' ∧
        d = .of (.invalidItemStart '}') (rangeBetween label options.counting text i (i + 1))) ∨
      ∃ k i, BehindGap text k i ∧ d = .of (.invalidItemStart '\\')
        (rangeBetween label options.counting text i (min (i + 1) text.length)) := by
  intro text d hd hcode
  obtain ⟨x, hx, rfl⟩ := List.mem_map.mp hd
  have hstart := State.ofSource_at options.counting.meter_lawful source options.maxDepth
  obtain hnone | hlies := Grammar.fileMap_notices rfl (Grammar.value_notices rfl) [] _ hstart x
    (List.mem_reverse.mp hx)
  · cases hnone
  obtain ⟨c, i, hskips, rfl⟩ := hlies.skips hcode
  cases hskips with
  | itself hi =>
    have hlast : min (i + 1) text.length = i + 1 :=
      Nat.min_eq_left (List.getElem?_eq_some_iff.mp hi).1
    exact .inl ⟨i, hi, congrArg (fun j => Diagnostic.of _ (rangeBetween label _ text i j)) hlast⟩
  | behindGap h => exact .inr ⟨_, i, h, rfl⟩

/-- A brace where an item should start. -/
theorem parse_skips_brace :
    let text := "x: [\x7d]".toList
    ∃ d ∈ (parse "" (deliveries text) {}).diagnostics, d.code = .invalidArrayValue ∧
      ∃ i, text[i]? = some '}' ∧
        d = .of (.invalidItemStart '}') (rangeBetween "" .bytes text i (i + 1)) := by
  intro text
  have hfound : ∃ d ∈ (parse "" (deliveries text) {}).diagnostics, d.code = .invalidArrayValue := by
    decide +kernel
  obtain ⟨d, hd, hcode⟩ := hfound
  have hskips := parse_skips "" (deliveries text) {} d hd hcode
  rw [delivered_deliveries] at hskips
  rcases hskips with hbrace | ⟨k, i, hgap, -⟩
  · exact ⟨d, hd, hcode, hbrace⟩
  · -- there is no backslash in the text
    exact absurd (List.mem_of_getElem? hgap.slash) (by decide)

/-- A backslash at the end of a line is quoted for the bracket behind it, which should close the
sequence and is skipped. -/
theorem parse_skips_bracket :
    let text := "x: [\\\n]".toList
    let output := parse "" (deliveries text) {}
    text[6]? = some ']' ∧
      .of (.invalidItemStart '\\') (rangeBetween "" .bytes text 6 7) ∈ output.diagnostics ∧
      ∃ d ∈ output.diagnostics, d.code = .unterminatedArray := by
  intro text output
  exact ⟨by decide, by decide +kernel, by decide +kernel⟩

end Diagram
