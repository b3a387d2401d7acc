import Diagram.Proofs.Tape.Over

/-!
The end of a source. A reader that finds nothing has come to it: all that the source delivers has
been asked for, and if the source fails, the reader knows why.
-/
namespace Diagram

variable {π : Type}

namespace Reader

variable {r r' : Reader π} {t : Tape π} {p l : List Char}

theorem next_ended (h : r.next = (none, r')) : r'.ended = true := by
  simpa [h] using next_over r

theorem At.read_ended (h : r.At t p []) (hread : r.read = (none, r')) : r'.ended = true := by
  rw [h.read_eq, peek] at hread
  split at hread
  · cases hread
  · next r₀ hnext =>
    have hended : r₀.ended = true := next_ended hnext
    cases hread
    exact hended

theorem At.readVisibleWithin_ended (h : r.At t p []) {n : Nat} (hn : r.unread.length < n)
    (hread : r.readVisibleWithin n = (none, r')) : r'.ended = true := by
  induction n generalizing r p with
  | zero => omega
  | succ n ih =>
    match hu : r.unread with
    | [] =>
      obtain ⟨r₁, hnone, -, -⟩ := h.read_nil hu
      have hended := h.read_ended hnone
      rw [readVisibleWithin, hnone] at hread
      cases hread
      exact hended
    | c :: u =>
      obtain ⟨r₁, hsome, h₁, -⟩ := h.read_cons hu
      rw [readVisibleWithin, hsome] at hread
      rw [hu, List.length_cons] at hn
      simp only at hread
      split at hread
      · refine ih h₁ ?_ hread
        rw [h.unread_of_read hu h₁]
        omega
      · cases hread

/-- A reader that finds nothing visible has come to the end of its source. -/
theorem At.readVisible_ended (h : r.At t p []) (hread : r.readVisible = (none, r')) :
    r'.ended = true :=
  h.readVisibleWithin_ended (by have := h.unread_le; omega) hread

/-- Where the source has ended, all that it delivers has been asked for. -/
theorem At.reach_of_ended (h : r.At t p l) (hended : r.ended = true) :
    r.reach = t.mark t.text.length := by
  have htext := h.text
  rw [unread, hended, cond_true, List.append_nil] at htext
  rw [h.reach, htext, Tape.mark, List.take_length]

/-- Where the source has ended, it has not been asked for what is behind its failure. -/
theorem At.source_of_ended (h : r.At t p l) (hended : r.ended = true) : r.source = t.beyond := by
  have hunasked := h.unasked
  rwa [Reader.unasked, if_pos hended] at hunasked

/-- Where the source has ended, it has failed if it was to fail. -/
theorem At.failure_of_ended (h : r.At t p l) (hended : r.ended = true) : r.failure = t.failure := by
  have hfate := h.fate
  rwa [Reader.fate, if_pos hended] at hfate

end Reader

end Diagram
