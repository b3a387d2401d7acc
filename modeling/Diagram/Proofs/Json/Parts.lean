import Diagram.Proofs.Compact.Range
import Diagram.Proofs.Json.Basic
import Diagram.Tree.Json

/-!
The parts of a tree that hold no other nodes, as JSON values: numbers, ranges, comments, arrowheads
and edge indexes. Each is read back from what it is written as, if its positions can be held, and
whatever is read can be written again.
-/
namespace Diagram

/-! ## Numbers -/

/-- The bound on the number of words is never reached. -/
theorem ofWords_wordsWithin {fuel n : Nat} (h : n ≤ fuel) : ofWords (wordsWithin fuel n) = n := by
  induction fuel generalizing n with
  | zero => simp [wordsWithin, ofWords]; omega
  | succ fuel ih =>
    rw [wordsWithin]
    split
    · next hn => rw [hn]; rfl
    · next hn =>
      have hlt : n / wordBase < n := Nat.div_lt_self (Nat.pos_of_ne_zero hn) (by decide)
      rw [ofWords, ih (by omega), Nat.mod_add_div]

theorem ofWords_words (n : Nat) : ofWords (words n) = n :=
  ofWords_wordsWithin (Nat.le_refl n)

theorem lt_of_mem_wordsWithin {fuel n w : Nat} (h : w ∈ wordsWithin fuel n) : w < wordBase := by
  induction fuel generalizing n with
  | zero => simp [wordsWithin] at h
  | succ fuel ih =>
    rw [wordsWithin] at h
    split at h
    · exact absurd h List.not_mem_nil
    · obtain rfl | h := List.mem_cons.mp h
      · exact Nat.mod_lt _ (by decide)
      · exact ih h

theorem Json.natural?_integer {limit n : Nat} (h : n ≤ limit) :
    Json.natural? limit (.integer n) = some n := by
  simp [natural?, h]

theorem Json.natural?_le (limit : Nat) (j : Json) : Yields (natural? limit j) (· ≤ limit) := by
  cases j with
  | integer n =>
    rw [natural?]
    split
    · next h =>
      obtain ⟨hpos, hle⟩ : 0 ≤ n ∧ n ≤ limit := by simpa using h
      exact .some (by omega)
    · exact .none
  | _ => exact .none

theorem integerOfJson?_toJson (n : Int) : integerOfJson? (integerToJson n) = some n := by
  have hwords : ((words n.natAbs).map fun w : Nat => Json.integer w).mapM
      (Json.natural? (wordBase - 1)) = some (words n.natAbs) :=
    mapM_map_eq_some fun w hw =>
      Json.natural?_integer (Nat.le_sub_one_of_lt (lt_of_mem_wordsWithin hw))
  have hsign : n.sign ∈ [-1, 0, 1] := by
    obtain h | h | h := Int.sign_trichotomy n <;> simp [h]
  simp only [integerOfJson?, integerToJson, Json.array?, Option.bind_eq_bind, Option.bind_some,
    hwords, if_pos hsign, ofWords_words, Int.sign_mul_natAbs]
  rfl

namespace Fraction

/-- The denominator is not zero. -/
def Fits (q : Fraction) : Prop :=
  q.denominator ≠ 0

theorem ofJson?_toJson {q : Fraction} (h : q.Fits) : ofJson? q.toJson = some q := by
  simp only [ofJson?, toJson, Json.array?, Option.bind_eq_bind, Option.bind_some,
    integerOfJson?_toJson]
  exact if_neg h

theorem fits_of_ofJson? (j : Json) : Yields (ofJson? j) Fits := by
  rw [ofJson?]
  refine .skip fun elements => ?_
  split
  · refine .skip fun numerator => .skip fun denominator => ?_
    split
    · exact .none
    · next h => exact .pure h
  · exact .none

end Fraction

/-! ## Ranges and comments -/

theorem Range.ofJson?_toJson {r : Range} (h : r.Fits) : ofJson? r.toJson = some r := by
  simp [ofJson?, toJson, Json.text?, ofCompact_compact h, Except.toOption]

theorem Range.fits_of_ofJson? (j : Json) : Yields (ofJson? j) Fits := by
  rw [ofJson?]
  refine .skip fun s r hr => ?_
  cases h : ofCompact s with
  | error e => simp [h, Except.toOption] at hr
  | ok r' =>
    obtain rfl : r' = r := by simpa [h, Except.toOption] using hr
    exact fits_of_ofCompact h

theorem Comment.ofJson?_toJson {c : Comment Range} (h : c.range.Fits) :
    ofJson? c.toJson = some c := by
  simp [ofJson?, toJson, Json.fields?, Json.members?, Json.lookup, Range.ofJson?_toJson h,
    Json.text?]

theorem Comment.fits_of_ofJson? (j : Json) : Yields (ofJson? j) fun c => c.range.Fits := by
  rw [ofJson?]
  refine .skip fun members => ?_
  split
  · exact .bind (Range.fits_of_ofJson? _) fun range hrange => .skip fun text => .pure hrange
  · exact .none

/-! ## Arrowheads and edge indexes -/

theorem Arrowhead.ofJson?_toJson (a : Arrowhead) : ofJson? a.toJson = some a := by
  cases a <;> rfl

/-- The index can be held. -/
def EdgeChoice.Fits : EdgeChoice → Prop
  | .nth n => n ≤ maxWord
  | .all => True

theorem EdgeChoice.ofJson?_toJson {c : EdgeChoice} (h : c.Fits) : ofJson? c.toJson = some c := by
  cases c with
  | nth n => simp [ofJson?, toJson, Json.natural?_integer h]
  | all => rfl

theorem EdgeChoice.fits_of_ofJson? (j : Json) : Yields (ofJson? j) Fits := by
  rw [ofJson?]
  refine .skip fun variant => ?_
  split
  · exact .bind (Json.natural?_le maxWord _) fun n hn => .pure hn
  · exact .pure trivial
  · exact .pure trivial
  · exact .none

end Diagram
