import Diagram.Proofs.Logic

/-!
Two runs of the grammar side by side. The first run is over a text in plain indexes; the second is
over the same text in other places, which may have more text in front of it and a new line behind
it. `Twin` says that both stand at the same place of the common text and have noticed the same.
-/
namespace Diagram

variable {π ρ : Type}

/-! ## Other places -/

/-- The same span in other places. -/
def Span.map (f : π → ρ) (span : Span π) : Span ρ :=
  ⟨f span.start, f span.stop⟩

/-- The same onset in other places. -/
def Onset.map (f : π → ρ) : Onset π → Onset ρ
  | .place p => .place (f p)
  | .colonBefore p => .colonBefore (f p)

/-- The same problem in other places. -/
def Problem.map (f : π → ρ) (problem : Problem π) : Problem ρ :=
  ⟨problem.cause, problem.start.map f, f problem.stop⟩

/-! ## Pairs of runs -/

/-- A run over a text in plain indexes, and a run over that text with more around it. -/
structure Pairing (π : Type) where
  first : Frame Nat
  second : Frame π
  /-- What the second run has consumed in front of the common text, latest first. -/
  base : List Char
  /-- What comes behind the common text for the second run: nothing, or a new line. -/
  tail : List Char
  /-- The levels around the second run that are not around the first. -/
  shift : Nat
  /-- The causes of the problems that make a comparison void. -/
  voids : Cause → Prop
  /-- What the second run had noticed before anything that the first notices, latest first. -/
  extra : List (Problem π)
  meter : first.meter = .index
  text : second.text = base.reverse ++ first.text ++ tail
  newline : ∀ c ∈ tail.head?, c = '\n'
  voids_of_tail : tail ≠ [] → ∀ cause, voids cause
  blocks : shift = 0 ∨ '|' ∉ first.text
  depth : second.depth = first.depth + shift
  inGroup : second.inGroup = first.inGroup

namespace Pairing

variable (K : Pairing π)

theorem depth_deeper : K.second.deeper.depth = K.first.deeper.depth + K.shift := by
  have h := K.depth
  simp only [Frame.deeper]
  omega

/-- One level deeper. -/
def deeper : Pairing π :=
  { K with
    first := K.first.deeper, second := K.second.deeper, meter := K.meter, text := K.text,
    blocks := K.blocks, inGroup := K.inGroup, depth := K.depth_deeper }

/-- Inside the parentheses of an edge group, or outside. -/
def grouped (inGroup : Bool) : Pairing π :=
  { K with
    first := K.first.grouped inGroup, second := K.second.grouped inGroup, meter := K.meter,
    text := K.text, blocks := K.blocks, depth := K.depth, inGroup := rfl }

theorem grouped_grouped {K : Pairing π} (h : K.first.inGroup = false) :
    (K.grouped true).grouped false = K := by
  have hfirst := Frame.grouped_grouped h
  have hsecond := Frame.grouped_grouped (K.inGroup.trans h)
  obtain ⟨first, second, base, tail, shift, voids, extra⟩ := K
  simp only [grouped, hfirst, hsecond]

/-- The second run has noticed more before. -/
def noting (problems : List (Problem π)) : Pairing π :=
  { K with
    extra := problems ++ K.extra, meter := K.meter, text := K.text, newline := K.newline,
    voids_of_tail := K.voids_of_tail, blocks := K.blocks, depth := K.depth, inGroup := K.inGroup }

theorem noting_noting (problems problems' : List (Problem π)) :
    (K.noting problems).noting problems' = K.noting (problems' ++ problems) := by
  simp only [noting, List.append_assoc]

/-- The second run has room for the containers that the first has room for. It has room for more
only if the comparison is void where the first is at its limit. -/
structure Limits : Prop where
  le : K.first.limit + K.shift ≤ K.second.limit
  eq_or_void : K.second.limit = K.first.limit + K.shift ∨ K.voids .nestingTooDeep

theorem Limits.deeper {K : Pairing π} (h : K.Limits) : K.deeper.Limits :=
  ⟨h.le, h.eq_or_void⟩

/-- The place in the second run of an index of the common text, which does not go beyond its end. -/
def place (i : Nat) : π :=
  K.second.mark (K.base.length + min i K.first.text.length)

/-- The most characters that the second run has asked for: it may look over the blanks behind the
common text, and at one character more. -/
def bound : Nat :=
  K.base.length + K.first.text.length + (K.tail.takeWhile isBlank).length + 1

/-- How many characters the runs have asked for. It does not matter where every problem makes the
comparison void, unless there is a new line. -/
def Counts (m n : Nat) : Prop :=
  ((∃ cause, ¬K.voids cause) → n = K.base.length + m) ∧ (K.tail ≠ [] → n ≤ K.bound)

theorem first_mark {i : Nat} (hi : i ≤ K.first.text.length) : K.first.mark i = i := by
  rw [Tape.mark, K.meter, Meter.index_after, List.length_take, Nat.min_eq_left hi]

theorem place_eq {i : Nat} (hi : i ≤ K.first.text.length) :
    K.place i = K.second.mark (K.base.length + i) := by
  rw [place, Nat.min_eq_left hi]

theorem place_inj {i j : Nat} (hi : i ≤ K.first.text.length) (hj : j ≤ K.first.text.length) :
    K.place i = K.place j ↔ i = j := by
  have hlength : K.base.length + K.first.text.length ≤ K.second.text.length := by
    simp [K.text]
  refine ⟨fun h => ?_, congrArg _⟩
  rw [K.place_eq hi, K.place_eq hj] at h
  rcases Nat.lt_trichotomy i j with hlt | heq | hlt
  · exact absurd h (Tape.mark_ne (by omega) (by omega))
  · exact heq
  · exact absurd h.symm (Tape.mark_ne (by omega) (by omega))

theorem tail_eq (h : K.tail ≠ []) : ∃ rest, K.tail = '\n' :: rest := by
  match htail : K.tail with
  | [] => exact absurd htail h
  | c :: rest =>
    have hc := K.newline c (by simp [htail])
    exact ⟨rest, by rw [hc]⟩

/-- If there is a problem that does not make the comparison void, nothing comes behind. -/
theorem tail_eq_nil (h : ∃ cause, ¬K.voids cause) : K.tail = [] := by
  obtain ⟨cause, hcause⟩ := h
  exact Classical.not_not.mp fun hne => hcause (K.voids_of_tail hne cause)

/-- The second run may always ask for as many characters as the first, and if there is a new line,
for two more. -/
theorem add_two_le_bound (h : K.tail ≠ []) :
    K.base.length + K.first.text.length + 2 ≤ K.bound := by
  obtain ⟨rest, hrest⟩ := K.tail_eq h
  simp [bound, hrest, show isBlank '\n' = true from rfl]

/-- A new line comes before whatever is visible behind the common text. -/
theorem newline_mem {b u : List Char} {c : Char} (h : K.tail = b ++ c :: u)
    (hc : isBlank c = false) : '\n' ∈ b := by
  have hhead := K.newline
  rw [h] at hhead
  match b with
  | [] => exact absurd (hhead c rfl) (ne_newline_of_visible hc)
  | x :: b => simp [hhead x rfl]

theorem bound_of_blank (h : ∀ x ∈ K.tail, isBlank x = true) :
    K.second.text.length ≤ K.bound := by
  have hblanks : K.tail.takeWhile isBlank = K.tail := by
    have happend : (K.tail ++ []).takeWhile isBlank = K.tail ++ [].takeWhile isBlank :=
      List.takeWhile_append_of_pos h
    simpa using happend
  rw [bound, hblanks, K.text]
  simp
  omega

theorem bound_of_append {b u : List Char} {c : Char} (h : K.tail = b ++ c :: u)
    (hb : ∀ x ∈ b, isBlank x = true) :
    K.base.length + K.first.text.length + b.length + 1 ≤ K.bound := by
  rw [bound, h, List.takeWhile_append_of_pos hb, List.length_append]
  omega

end Pairing

/-- Both runs have consumed `p` of the common text and looked at `l`, latest first, and have noticed
the same problems, apart from what the second had noticed before. -/
structure Twin (K : Pairing π) (p l : List Char) (s : State Nat) (t : State π) : Prop where
  first : s.At K.first p l
  second : t.At K.second (p ++ K.base) l
  problems : t.problems = s.problems.map (Problem.map K.place) ++ K.extra
  /-- No problem starts in front of the first character. -/
  onsets : ∀ x ∈ s.problems, ∀ i, x.start = .colonBefore i → 0 < i ∧ i ≤ K.first.text.length
  /-- The comparison ends with the first problem if there is more text behind. -/
  clean : K.tail ≠ [] → s.problems = []
  counts : K.Counts s.reader.count t.reader.count

namespace Twin

variable {K : Pairing π} {p l : List Char} {s : State Nat} {t : State π}

/-- The readers move, and everything else stays. -/
theorem setReader {p' l' : List Char} {r : Reader Nat} {r' : Reader π} (h : Twin K p l s t)
    (hr : r.At K.first.toTape p' l') (hr' : r'.At K.second.toTape (p' ++ K.base) l')
    (hcounts : K.Counts r.count r'.count) :
    Twin K p' l' { s with reader := r } { t with reader := r' } :=
  ⟨h.first.setReader hr, h.second.setReader hr', h.problems, h.onsets, h.clean, hcounts⟩

theorem sameProblems (h : Twin K p l s t) (hextra : K.extra = []) :
    t.problems = s.problems.map (Problem.map K.place) := by
  rw [h.problems, hextra, List.append_nil]

theorem length_le (h : Twin K p l s t) : p.length + l.length ≤ K.first.text.length :=
  h.first.reader.length_le

/-- What is unread in the second run is what is unread in the first, and the text behind. -/
theorem unread_eq (h : Twin K p l s t) : t.reader.unread = s.reader.unread ++ K.tail := by
  have h₁ := h.first.reader.text
  have h₂ := h.second.reader.text
  rw [K.text, ← h₁] at h₂
  simpa using h₂

theorem place (h : Twin K p l s t) :
    s.reader.place = p.length ∧ t.reader.place = K.place p.length := by
  have hle := h.length_le
  refine ⟨?_, ?_⟩
  · rw [h.first.reader.mark, K.first_mark (by omega)]
  · rw [h.second.reader.mark, K.place_eq (by omega), List.length_append, Nat.add_comm]

theorem lookedPlace (h : Twin K p l s t) :
    s.reader.lookedPlace = p.length + l.length ∧
      t.reader.lookedPlace = K.place (p.length + l.length) := by
  have hle := h.length_le
  refine ⟨?_, ?_⟩
  · rw [h.first.reader.lookedMark, K.first_mark hle]
  · rw [h.second.reader.lookedMark, K.place_eq hle, List.length_append]
    congr 1
    omega

/-- More characters of the common text have been asked for. -/
theorem counts_max (h : Twin K p l s t) {m n : Nat} {n' : Nat}
    (hn : n ≤ K.first.text.length) (hm : m = max s.reader.count n)
    (hn' : n' = max t.reader.count (K.base.length + n)) : K.Counts m n' := by
  obtain ⟨hend, hbound⟩ := h.counts
  refine ⟨fun hvoids => ?_, fun htail => ?_⟩
  · have := hend hvoids
    omega
  · have := hbound htail
    have := K.add_two_le_bound htail
    omega

end Twin

end Diagram
