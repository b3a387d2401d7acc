import Diagram.Proofs.Position
import Diagram.Reader

/-!
Readers over a tape: what a reader has consumed, what it has looked at and what is unread make up a
text that never changes, and its places are those of that text. `Reader.At` says where on the tape
a reader stands; every step of a reader moves it in the way that its characters tell.
-/
namespace Diagram

variable {π : Type}

/-! ## Lawful meters -/

namespace Meter

/-- What is relied on: stepping back over a character undoes stepping over it, unless it is a
newline, and stepping over characters never leads back to where it started. -/
structure Lawful (m : Meter π) : Prop where
  before_advance : ∀ p c, c ≠ '\n' → m.before (m.advance p c) c = p
  advanceBy_ne : ∀ p c cs, m.advanceBy p (c :: cs) ≠ p

theorem after_reverse_cons (m : Meter π) (c : Char) (p : List Char) :
    m.after (c :: p).reverse = m.advance (m.after p.reverse) c := by
  simp [after_append]

theorem index_advanceBy (i : Nat) (cs : List Char) : index.advanceBy i cs = i + cs.length := by
  induction cs generalizing i with
  | nil => rfl
  | cons c cs ih => rw [advanceBy_cons, ih, List.length_cons]; simp only [index]; omega

theorem index_after (cs : List Char) : index.after cs = cs.length := by
  rw [after, index_advanceBy]
  exact Nat.zero_add _

theorem index_lawful : index.Lawful where
  before_advance _ _ _ := rfl
  advanceBy_ne p c cs := by
    rw [index_advanceBy, List.length_cons]
    omega

end Meter

theorem Counting.meter_lawful (counting : Counting) : counting.meter.Lawful where
  before_advance p c hc := by
    simp [Counting.meter, Position.advance, Position.before, hc]
  advanceBy_ne p c cs h := by
    have hoffset := Position.advanceBy_offset counting p (c :: cs)
    have hlength := counting.length_pos (List.cons_ne_nil c cs)
    have hsame : (p.advanceBy counting (c :: cs)).offset = p.offset := congrArg Position.offset h
    omega

/-! ## Tapes -/

/-- The text that a reader goes over, and how it measures the text. -/
structure Tape (π : Type) where
  meter : Meter π
  lawful : meter.Lawful
  text : List Char
  /-- The number of characters that have been consumed or may be. -/
  budget : Nat
  /-- Why the source fails behind the text, if it does. -/
  failure : Option String
  /-- What the source would deliver behind its failure. -/
  beyond : List Delivery

/-- The place behind the first `i` characters. -/
def Tape.mark (t : Tape π) (i : Nat) : π :=
  t.meter.after (t.text.take i)

/-- Stepping back over a character of the text leads to the place in front of it. -/
theorem Tape.mark_before {t : Tape π} {i : Nat} {c : Char} (hi : t.text[i]? = some c)
    (hc : c ≠ '\n') : t.meter.before (t.mark (i + 1)) c = t.mark i := by
  rw [mark, List.take_add_one, hi, Option.toList_some, Meter.after_append]
  exact t.lawful.before_advance _ _ hc

/-- Different indexes of the text have different places. -/
theorem Tape.mark_ne {t : Tape π} {i j : Nat} (hij : i < j) (hj : j ≤ t.text.length) :
    t.mark i ≠ t.mark j := by
  have hsplit : t.text.take j = t.text.take i ++ (t.text.take j).drop i := by
    have := List.take_append_drop i (t.text.take j)
    rwa [List.take_take, Nat.min_eq_left (by omega), eq_comm] at this
  match hrest : (t.text.take j).drop i with
  | [] =>
    have hlength := congrArg List.length hrest
    simp at hlength
    omega
  | c :: cs =>
    intro h
    rw [mark, mark, hsplit, hrest, Meter.after_append] at h
    exact t.lawful.advanceBy_ne _ c cs h.symm

/-- Why a source fails behind what it delivers, if it does. -/
def failureOf : List Delivery → Option String
  | .ok _ :: rest => failureOf rest
  | .error reason :: _ => some reason
  | [] => none

/-- What a source would deliver behind its failure. -/
def behindFailure : List Delivery → List Delivery
  | .ok _ :: rest => behindFailure rest
  | .error _ :: rest => rest
  | [] => []

namespace Reader

/-- Why the source has failed or will fail, if it does. -/
def fate (r : Reader π) : Option String :=
  if r.ended then r.failure else (failureOf r.source).or r.failure

/-- What the source is not asked for, as it has failed or will fail in front of it. -/
def unasked (r : Reader π) : List Delivery :=
  if r.ended then r.source else behindFailure r.source

/-- The characters that have not been consumed or looked at. -/
def unread (r : Reader π) : List Char :=
  r.queued ++ bif r.ended then [] else delivered r.source

/-- The number of characters delivered. -/
def count (r : Reader π) : Nat :=
  r.past.length + r.looked.length + r.queued.length

/-- A reader on a tape that has consumed `p` and looked at `l`, both latest first. -/
structure At (t : Tape π) (p l : List Char) (r : Reader π) : Prop where
  meter : r.meter = t.meter
  past : r.past = p
  looked : r.looked = l
  text : p.reverse ++ l.reverse ++ r.unread = t.text
  place : r.place = t.meter.after p.reverse
  lookedPlace : r.lookedPlace = t.meter.after (p.reverse ++ l.reverse)
  reach : r.reach = t.meter.after (p.reverse ++ l.reverse ++ r.queued)
  left : r.left + p.length = t.budget
  room : l.length + r.queued.length + r.source.length ≤ r.left
  breach : r.breach = none
  fate : r.fate = t.failure
  unasked : r.unasked = t.beyond

variable {t : Tape π} {p l : List Char} {r : Reader π}

theorem At.mark (h : r.At t p l) : r.place = t.mark p.length := by
  rw [h.place, Tape.mark, ← h.text, List.append_assoc, List.take_left' (by simp)]

theorem At.lookedMark (h : r.At t p l) : r.lookedPlace = t.mark (p.length + l.length) := by
  rw [h.lookedPlace, Tape.mark, ← h.text, List.take_left' (by simp)]

theorem At.known {b : List Char} {c : Char} (h : r.At t (b ++ c :: p) l) :
    t.text[p.length]? = some c := by
  simp [← h.text]

theorem At.length_le (h : r.At t p l) : p.length + l.length ≤ t.text.length := by
  simp [← h.text]

theorem At.unread_eq (h : r.At t p l) : r.unread = t.text.drop (p.length + l.length) := by
  rw [← h.text, List.drop_left' (by simp)]

theorem At.unread_of_known {c : Char} (h : r.At t p []) (hc : t.text[p.length]? = some c) :
    ∃ u, r.unread = c :: u := by
  match hu : r.unread with
  | [] => simp [← h.text, hu] at hc
  | x :: u =>
    have hx : x = c := by simpa [← h.text, hu] using hc
    exact ⟨u, by rw [hx]⟩

theorem delivered_length_le (source : List Delivery) :
    (delivered source).length ≤ source.length := by
  induction source with
  | nil => simp [delivered]
  | cons d ds ih =>
    cases d with
    | error reason => simp [delivered]
    | ok c => simpa [delivered] using ih

/-- What has been looked at or is unread may be consumed. -/
theorem At.unread_le (h : r.At t p l) : l.length + r.unread.length ≤ r.left := by
  have hroom := h.room
  have hd := delivered_length_le r.source
  rw [unread, List.length_append]
  cases r.ended <;> simp <;> omega

/-! ## The steps of a reader -/

theorem At.retreat (h : r.At t p l) : r.retreat.At t p [] := by
  refine ⟨h.meter, h.past, rfl, ?_, h.place, ?_, ?_, h.left, ?_, h.breach, h.fate, h.unasked⟩
  · simpa [Reader.retreat, Reader.unread, h.looked] using h.text
  · simpa [Reader.retreat] using h.place
  · simpa [Reader.retreat, h.looked] using h.reach
  · have hroom := h.room
    simp [Reader.retreat, h.looked]
    omega

theorem At.accept (h : r.At t p l) : r.accept.At t (l ++ p) [] := by
  refine ⟨h.meter, ?_, rfl, ?_, ?_, ?_, ?_, ?_, ?_, h.breach, h.fate, h.unasked⟩
  · simp [Reader.accept, h.past, h.looked]
  · simpa [Reader.accept, Reader.unread] using h.text
  · simpa [Reader.accept] using h.lookedPlace
  · simpa [Reader.accept] using h.lookedPlace
  · simpa [Reader.accept] using h.reach
  · have hleft := h.left
    have hroom := h.room
    simp [Reader.accept, h.looked]
    omega
  · have hroom := h.room
    simp [Reader.accept, h.looked]
    omega

/-- A character that has been asked for before comes from the queue. -/
theorem At.peek_queued {c : Char} {rest : List Char} (h : r.At t p l) (hq : r.queued = c :: rest) :
    ∃ r', r.peek = (some c, r') ∧ r'.At t p (c :: l) ∧
      r'.count = max r.count (p.length + l.length + 1) := by
  have htext := h.text
  have hreach := h.reach
  have hroom := h.room
  rw [unread, hq] at htext
  refine ⟨{ r with queued := rest }.lookAt c, ?_, ?_, ?_⟩
  · simp [Reader.peek, next, hq]
  · refine ⟨h.meter, h.past, ?_, ?_, h.place, ?_, ?_, h.left, ?_, h.breach, h.fate, h.unasked⟩
    · simp [lookAt, h.looked]
    · simpa [lookAt, unread] using htext
    · simp [lookAt, h.lookedPlace, h.meter, Meter.after_append, Meter.advanceBy_append]
    · simpa [lookAt, hq] using hreach
    · simp only [hq, List.length_cons] at hroom
      simp only [lookAt, List.length_cons]
      omega
  · simp [lookAt, count, hq, h.past, h.looked]
    omega

/-- Behind the queue, the next character comes from the source, whose place moves on. -/
theorem At.peek_delivered {c : Char} {rest : List Delivery} (h : r.At t p l) (hq : r.queued = [])
    (he : r.ended = false) (hs : r.source = .ok c :: rest) :
    ∃ r', r.peek = (some c, r') ∧ r'.At t p (c :: l) ∧
      r'.count = max r.count (p.length + l.length + 1) := by
  have htext := h.text
  have hreach := h.reach
  have hroom := h.room
  have hfate := h.fate
  have hunasked := h.unasked
  rw [unread, hq, he, hs] at htext
  rw [hq, List.append_nil] at hreach
  rw [Reader.fate, he, hs] at hfate
  rw [Reader.unasked, he, hs] at hunasked
  refine ⟨{ r with source := rest, reach := r.meter.advance r.reach c }.lookAt c, ?_, ?_, ?_⟩
  · simp [Reader.peek, next, hq, pull, he, hs]
  · refine ⟨h.meter, h.past, ?_, ?_, h.place, ?_, ?_, h.left, ?_, h.breach, ?_, ?_⟩
    · simp [lookAt, h.looked]
    · simpa [lookAt, unread, hq, he, delivered] using htext
    · simp [lookAt, h.lookedPlace, h.meter, Meter.after_append, Meter.advanceBy_append]
    · simp [lookAt, hq, hreach, h.meter, Meter.after_append, Meter.advanceBy_append]
    · simp only [hq, hs, List.length_cons, List.length_nil] at hroom
      simp only [lookAt, hq, List.length_cons, List.length_nil]
      omega
    · simpa [lookAt, Reader.fate, he, failureOf] using hfate
    · simpa [lookAt, Reader.unasked, he, behindFailure] using hunasked
  · simp [lookAt, count, hq, h.past, h.looked]
    omega

theorem At.peek_cons {c : Char} {u : List Char} (h : r.At t p l) (hu : r.unread = c :: u) :
    ∃ r', r.peek = (some c, r') ∧ r'.At t p (c :: l) ∧
      r'.count = max r.count (p.length + l.length + 1) := by
  cases hq : r.queued with
  | cons x rest =>
    simp only [unread, hq, List.cons_append, List.cons.injEq] at hu
    obtain ⟨rfl, -⟩ := hu
    exact h.peek_queued hq
  | nil =>
    simp only [unread, hq, List.nil_append] at hu
    cases he : r.ended with
    | true => simp [he] at hu
    | false =>
      simp only [he, cond_false] at hu
      match hs : r.source with
      | [] => simp [hs, delivered] at hu
      | .error reason :: rest => simp [hs, delivered] at hu
      | .ok x :: rest =>
        simp only [hs, delivered, List.cons.injEq] at hu
        obtain ⟨rfl, -⟩ := hu
        exact h.peek_delivered hq he hs

theorem At.count_eq (h : r.At t p l) : r.count = p.length + l.length + r.queued.length := by
  rw [count, h.past, h.looked]

theorem At.count_le (h : r.At t p l) : r.count ≤ t.text.length := by
  rw [h.count_eq, ← h.text, unread]
  simp
  omega

/-- The place that the source has come to is that of the characters delivered. -/
theorem At.reachMark (h : r.At t p l) : r.reach = t.mark r.count := by
  have htext : t.text = p.reverse ++ l.reverse ++ r.queued ++
      bif r.ended then [] else delivered r.source := by
    rw [← h.text, unread, List.append_assoc _ r.queued]
  rw [h.reach, h.count_eq, Tape.mark, htext, List.take_left' (by simp; omega)]

theorem At.peek_nil (h : r.At t p l) (hu : r.unread = []) :
    ∃ r', r.peek = (none, r') ∧ r'.At t p [] ∧ r'.count = t.text.length := by
  obtain ⟨hq, hs⟩ := List.append_eq_nil_iff.mp hu
  have hcount : r.count = t.text.length := by
    rw [h.count_eq, ← h.text, hu, hq]
    simp
  cases he : r.ended with
  | true =>
    refine ⟨r.retreat, ?_, h.retreat, ?_⟩
    · simp [Reader.peek, next, hq, pull, he]
    · rw [← hcount]
      simp [Reader.retreat, count, Nat.add_assoc]
  | false =>
    simp only [he, cond_false] at hs
    -- the source ends or fails now, of which the tape knows already
    have key : ∀ source failure, source.length ≤ r.source.length → failure = r.fate →
        source = r.unasked → { r with source, ended := true, failure }.At t p l := by
      intro source failure hle hfate hunasked
      refine ⟨h.meter, h.past, h.looked, ?_, h.place, h.lookedPlace, h.reach, h.left, ?_, h.breach,
        hfate.trans h.fate, hunasked.trans h.unasked⟩
      · simpa [unread, he, hs] using h.text
      · have hroom := h.room
        simp only
        omega
    rw [← hcount]
    match hsrc : r.source with
    | [] =>
      refine ⟨_, ?_, (key [] r.failure (by simp) (by simp [Reader.fate, he, hsrc, failureOf])
        (by simp [Reader.unasked, he, hsrc, behindFailure])).retreat, ?_⟩
      · simp [Reader.peek, next, hq, pull, he, hsrc]
      · simp [Reader.retreat, count, Nat.add_assoc]
    | .error reason :: rest =>
      refine ⟨_, ?_, (key rest (some reason) (by simp [hsrc])
        (by simp [Reader.fate, he, hsrc, failureOf])
        (by simp [Reader.unasked, he, hsrc, behindFailure])).retreat, ?_⟩
      · simp [Reader.peek, next, hq, pull, he, hsrc]
      · simp [Reader.retreat, count, Nat.add_assoc]
    | .ok x :: rest => simp [hsrc, delivered] at hs

/-- A reader that has found nothing finds nothing again and stays as it is. -/
theorem At.peek_exhausted {r' : Reader π} (h : r.At t p []) (hpeek : r.peek = (none, r')) :
    r'.peek = (none, r') := by
  cases hq : r.queued with
  | cons x rest => simp [Reader.peek, next, hq] at hpeek
  | nil =>
    cases he : r.ended with
    | true =>
      obtain rfl : r.retreat = r' := by simpa [Reader.peek, next, hq, pull, he] using hpeek
      simp [Reader.peek, next, Reader.retreat, h.looked, hq, pull, he]
    | false =>
      match hs : r.source with
      | [] =>
        obtain rfl : { r with source := [], ended := true }.retreat = r' := by
          simpa [Reader.peek, next, hq, pull, he, hs] using hpeek
        simp [Reader.peek, next, Reader.retreat, h.looked, hq, pull]
      | .error reason :: rest =>
        obtain rfl :
            { r with source := rest, ended := true, failure := some reason }.retreat = r' := by
          simpa [Reader.peek, next, hq, pull, he, hs] using hpeek
        simp [Reader.peek, next, Reader.retreat, h.looked, hq, pull]
      | .ok x :: rest => simp [Reader.peek, next, hq, pull, he, hs] at hpeek

/-- What has been looked at is part of the text in front of what is unread. -/
theorem At.unread_of_cons {r' : Reader π} {c : Char} {u : List Char} (h : r.At t p l)
    (hu : r.unread = c :: u) (h' : r'.At t p (c :: l)) : r'.unread = u := by
  have htext := h.text.trans h'.text.symm
  rw [hu] at htext
  simpa using htext.symm

theorem At.peekMany_some (h : r.At t p l) (n : Nat) (hn : n ≤ r.unread.length) :
    ∃ r', r.peekMany n = (some (r.unread.take n), r') ∧
      r'.At t p ((r.unread.take n).reverse ++ l) ∧
      r'.count = max r.count (p.length + l.length + n) := by
  induction n generalizing r l with
  | zero =>
    refine ⟨r, by simp [peekMany], by simpa using h, ?_⟩
    rw [h.count_eq]
    omega
  | succ n ih =>
    match hu : r.unread with
    | [] => simp [hu] at hn
    | c :: u =>
      obtain ⟨r₁, hpeek, h₁, hcount₁⟩ := h.peek_cons hu
      have hu₁ : r₁.unread = u := h.unread_of_cons hu h₁
      obtain ⟨r₂, hmany, h₂, hcount₂⟩ := ih h₁ (by rw [hu] at hn; simpa [hu₁] using hn)
      rw [hu₁] at hmany h₂
      refine ⟨r₂, by simp [peekMany, hpeek, hmany], by simpa using h₂, ?_⟩
      rw [hcount₂, hcount₁, List.length_cons]
      omega

theorem At.peekMany_none (h : r.At t p l) (n : Nat) (hn : r.unread.length < n) :
    ∃ r', r.peekMany n = (none, r') ∧ r'.At t p [] ∧ r'.count = t.text.length := by
  induction n generalizing r l with
  | zero => simp at hn
  | succ n ih =>
    match hu : r.unread with
    | [] =>
      obtain ⟨r₁, hpeek, h₁, hcount₁⟩ := h.peek_nil hu
      exact ⟨r₁, by simp [peekMany, hpeek], h₁, hcount₁⟩
    | c :: u =>
      obtain ⟨r₁, hpeek, h₁, _⟩ := h.peek_cons hu
      have hu₁ : r₁.unread = u := h.unread_of_cons hu h₁
      obtain ⟨r₂, hmany, h₂, hcount₂⟩ := ih h₁ (by rw [hu] at hn; simpa [hu₁] using hn)
      exact ⟨r₂, by simp [peekMany, hpeek, hmany], h₂, hcount₂⟩

/-! ### Over blanks -/

/-- A text is blank, or has a first visible character. -/
theorem blank_or_visible (u : List Char) :
    (∀ x ∈ u, isBlank x = true) ∨
      ∃ b c v, u = b ++ c :: v ∧ (∀ x ∈ b, isBlank x = true) ∧ isBlank c = false := by
  induction u with
  | nil => exact .inl (by simp)
  | cons x u ih =>
    cases hx : isBlank x with
    | false => exact .inr ⟨[], x, u, rfl, by simp, hx⟩
    | true =>
      rcases ih with hall | ⟨b, c, v, rfl, hb, hc⟩
      · exact .inl (by simpa [hx] using hall)
      · exact .inr ⟨x :: b, c, v, rfl, by simpa [hx] using hb, hc⟩

theorem At.peekVisibleWithin_some {b u : List Char} {c : Char} (h : r.At t p l)
    (hu : r.unread = b ++ c :: u) (hb : ∀ x ∈ b, isBlank x = true) (hc : isBlank c = false)
    (n k : Nat) (hn : b.length < n) :
    ∃ r', r.peekVisibleWithin n k = (some (c, k + b.count '\n'), r') ∧
      r'.At t p (c :: (b.reverse ++ l)) ∧
      r'.count = max r.count (p.length + l.length + b.length + 1) := by
  -- on the fuel, as the blanks that are left get fewer with it
  induction n generalizing r l b k with
  | zero => simp at hn
  | succ n ih =>
    cases b with
    | nil =>
      obtain ⟨r₁, hpeek, h₁, hcount₁⟩ := h.peek_cons hu
      exact ⟨r₁, by simp [peekVisibleWithin, hpeek, hc], by simpa using h₁, by simpa using hcount₁⟩
    | cons x b =>
      obtain ⟨r₁, hpeek, h₁, hcount₁⟩ := h.peek_cons hu
      have hu₁ := h.unread_of_cons hu h₁
      have hx : isBlank x = true := hb x (by simp)
      obtain ⟨r₂, hrest, h₂, hcount₂⟩ := ih h₁ hu₁ (fun y hy => hb y (by simp [hy]))
        (if x = '\n' then k + 1 else k) (by simpa using hn)
      refine ⟨r₂, ?_, by simpa using h₂, ?_⟩
      · rw [peekVisibleWithin, hpeek]
        have hturn : (if x = '\n' then k + 1 else k) + b.count '\n' =
            k + (b.count '\n' + if x = '\n' then 1 else 0) := by
          split <;> omega
        simp only [hx, if_true, hrest, List.count_cons, beq_iff_eq, hturn]
      · rw [hcount₂, hcount₁, List.length_cons, List.length_cons]
        omega

theorem At.peekVisibleWithin_none (h : r.At t p l) (hu : ∀ x ∈ r.unread, isBlank x = true)
    (n k : Nat) (hn : r.unread.length < n) :
    ∃ r', r.peekVisibleWithin n k = (none, r') ∧ r'.At t p [] ∧ r'.count = t.text.length := by
  induction n generalizing r l k with
  | zero => simp at hn
  | succ n ih =>
    match hr : r.unread with
    | [] =>
      obtain ⟨r₁, hpeek, h₁, hcount₁⟩ := h.peek_nil hr
      exact ⟨r₁, by simp [peekVisibleWithin, hpeek], h₁, hcount₁⟩
    | x :: u =>
      obtain ⟨r₁, hpeek, h₁, _⟩ := h.peek_cons hr
      have hu₁ := h.unread_of_cons hr h₁
      have hx : isBlank x = true := hu x (by simp [hr])
      obtain ⟨r₂, hrest, h₂, hcount₂⟩ :=
        ih h₁ (by rw [hu₁]; intro y hy; exact hu y (by simp [hr, hy]))
        (if x = '\n' then k + 1 else k) (by rw [hr] at hn; simpa [hu₁] using hn)
      exact ⟨r₂, by simp [peekVisibleWithin, hpeek, hx, hrest], h₂, hcount₂⟩

theorem At.peekVisible_some {b u : List Char} {c : Char} (h : r.At t p l)
    (hu : r.unread = b ++ c :: u) (hb : ∀ x ∈ b, isBlank x = true) (hc : isBlank c = false) :
    ∃ r', r.peekVisible = (some (c, b.count '\n'), r') ∧ r'.At t p (c :: (b.reverse ++ l)) ∧
      r'.count = max r.count (p.length + l.length + b.length + 1) := by
  have hle := h.unread_le
  rw [hu] at hle
  simpa [peekVisible] using h.peekVisibleWithin_some hu hb hc (r.left + 1) 0
    (by simp at hle; omega)

theorem At.peekVisible_none (h : r.At t p l) (hu : ∀ x ∈ r.unread, isBlank x = true) :
    ∃ r', r.peekVisible = (none, r') ∧ r'.At t p [] ∧ r'.count = t.text.length :=
  h.peekVisibleWithin_none hu _ _ (by have := h.unread_le; omega)

/-! ### Consuming -/

/-- Where nothing has been looked at, reading is looking and accepting. -/
theorem At.read_eq (h : r.At t p []) : r.read = (r.peek.1, r.peek.2.accept) := by
  have hlooked := h.looked
  have hplace : r.lookedPlace = r.place := by rw [h.lookedPlace, h.place]; simp
  cases hq : r.queued with
  | cons x rest =>
    simp [Reader.read, Reader.peek, next, hq, hlooked, consume, lookAt, Reader.accept, hplace]
  | nil =>
    simp only [Reader.read, Reader.peek, hlooked, List.isEmpty_nil, if_true, next, hq, pull]
    cases he : r.ended with
    | true => simp [Reader.retreat, Reader.accept, hlooked, hq]
    | false =>
      match hs : r.source with
      | [] => simp [Reader.retreat, Reader.accept]
      | .error reason :: rest => simp [Reader.retreat, Reader.accept]
      | .ok x :: rest => simp [consume, lookAt, Reader.accept, hplace]

theorem count_accept (r : Reader π) : r.accept.count = r.count := by
  simp [Reader.accept, count]
  omega

theorem count_retreat (r : Reader π) : r.retreat.count = r.count := by
  simp [Reader.retreat, count]
  omega

theorem At.read_cons {c : Char} {u : List Char} (h : r.At t p []) (hu : r.unread = c :: u) :
    ∃ r', r.read = (some c, r') ∧ r'.At t (c :: p) [] ∧ r'.count = max r.count (p.length + 1) := by
  obtain ⟨r₁, hpeek, h₁, hcount⟩ := h.peek_cons hu
  exact ⟨r₁.accept, by simp [h.read_eq, hpeek], h₁.accept, by simpa [count_accept] using hcount⟩

theorem At.read_nil (h : r.At t p []) (hu : r.unread = []) :
    ∃ r', r.read = (none, r') ∧ r'.At t p [] ∧ r'.count = t.text.length := by
  obtain ⟨r₁, hpeek, h₁, hcount⟩ := h.peek_nil hu
  exact ⟨r₁.accept, by simp [h.read_eq, hpeek], h₁.accept, by simpa [count_accept] using hcount⟩

theorem At.unread_of_read {r' : Reader π} {c : Char} {u : List Char} (h : r.At t p [])
    (hu : r.unread = c :: u) (h' : r'.At t (c :: p) []) : r'.unread = u := by
  have htext := h.text.trans h'.text.symm
  rw [hu] at htext
  simpa using htext.symm

theorem At.readVisibleWithin_some {b u : List Char} {c : Char} (h : r.At t p [])
    (hu : r.unread = b ++ c :: u) (hb : ∀ x ∈ b, isBlank x = true) (hc : isBlank c = false)
    (n : Nat) (hn : b.length < n) :
    ∃ r', r.readVisibleWithin n = (some c, r') ∧ r'.At t (c :: (b.reverse ++ p)) [] ∧
      r'.count = max r.count (p.length + b.length + 1) := by
  induction n generalizing r p b with
  | zero => simp at hn
  | succ n ih =>
    cases b with
    | nil =>
      obtain ⟨r₁, hread, h₁, hcount₁⟩ := h.read_cons hu
      exact ⟨r₁, by simp [readVisibleWithin, hread, hc], by simpa using h₁, by simpa using hcount₁⟩
    | cons x b =>
      obtain ⟨r₁, hread, h₁, hcount₁⟩ := h.read_cons hu
      have hu₁ := h.unread_of_read hu h₁
      have hx : isBlank x = true := hb x (by simp)
      obtain ⟨r₂, hrest, h₂, hcount₂⟩ := ih h₁ hu₁ (fun y hy => hb y (by simp [hy]))
        (by simpa using hn)
      refine ⟨r₂, by simp [readVisibleWithin, hread, hx, hrest], by simpa using h₂, ?_⟩
      rw [hcount₂, hcount₁, List.length_cons, List.length_cons]
      omega

theorem At.readVisibleWithin_none (h : r.At t p []) (hu : ∀ x ∈ r.unread, isBlank x = true)
    (n : Nat) (hn : r.unread.length < n) :
    ∃ r', r.readVisibleWithin n = (none, r') ∧ r'.At t (r.unread.reverse ++ p) [] ∧
      r'.count = t.text.length := by
  induction n generalizing r p with
  | zero => simp at hn
  | succ n ih =>
    match hr : r.unread with
    | [] =>
      obtain ⟨r₁, hread, h₁, hcount₁⟩ := h.read_nil hr
      exact ⟨r₁, by simp [readVisibleWithin, hread], by simpa using h₁, hcount₁⟩
    | x :: u =>
      obtain ⟨r₁, hread, h₁, _⟩ := h.read_cons hr
      have hu₁ := h.unread_of_read hr h₁
      have hx : isBlank x = true := hu x (by simp [hr])
      obtain ⟨r₂, hrest, h₂, hcount₂⟩ := ih h₁
        (by rw [hu₁]; intro y hy; exact hu y (by simp [hr, hy]))
        (by rw [hr] at hn; simpa [hu₁] using hn)
      exact ⟨r₂, by simp [readVisibleWithin, hread, hx, hrest], by simpa [hu₁] using h₂, hcount₂⟩

theorem At.readVisible_some {b u : List Char} {c : Char} (h : r.At t p [])
    (hu : r.unread = b ++ c :: u) (hb : ∀ x ∈ b, isBlank x = true) (hc : isBlank c = false) :
    ∃ r', r.readVisible = (some c, r') ∧ r'.At t (c :: (b.reverse ++ p)) [] ∧
      r'.count = max r.count (p.length + b.length + 1) := by
  have hle := h.unread_le
  rw [hu] at hle
  exact h.readVisibleWithin_some hu hb hc _ (by simp at hle; omega)

theorem At.readVisible_none (h : r.At t p []) (hu : ∀ x ∈ r.unread, isBlank x = true) :
    ∃ r', r.readVisible = (none, r') ∧ r'.At t (r.unread.reverse ++ p) [] ∧
      r'.count = t.text.length :=
  h.readVisibleWithin_none hu _ (by have := h.unread_le; omega)

/-- A blank that has been read is passed over. -/
theorem At.readVisible_blank {r' : Reader π} {c : Char} (h : r.At t p [])
    (hc : isBlank c = true) (hread : r.read = (some c, r')) (h' : r'.At t (c :: p) []) :
    r.readVisible = r'.readVisible := by
  have hleft : r.left = r'.left + 1 := by
    have hbefore := h.left
    have hafter := h'.left
    rw [List.length_cons] at hafter
    omega
  rw [readVisible, readVisibleWithin, hread]
  simp only [hc, if_true]
  rw [readVisible, hleft]

/-- The last character can be put back if it is no newline. -/
theorem At.putBack {c : Char} (h : r.At t (c :: p) l) (hc : c ≠ '\n') :
    (r.putBack c).At t p [] ∧ (r.putBack c).count = r.count := by
  have h₀ := h.retreat
  have hhead : r.retreat.past.head? = some c := by simp [h₀.past]
  have hplace : r.meter.before r.place c = t.meter.after p.reverse := by
    rw [h.place, Meter.after_reverse_cons, h.meter, t.lawful.before_advance _ _ hc]
  have heq : r.putBack c = { r.retreat with
      past := p, queued := c :: r.retreat.queued, place := t.meter.after p.reverse,
      lookedPlace := t.meter.after p.reverse, left := r.left + 1 } := by
    simp only [Reader.putBack, hhead, if_true, checkStepBack, hc, if_false]
    simp [Reader.retreat, h.past, hplace]
  rw [heq]
  refine ⟨⟨h.meter, rfl, rfl, ?_, rfl, by simp, ?_, ?_, ?_, h.breach, h.fate, h.unasked⟩, ?_⟩
  · simpa [unread] using h₀.text
  · simpa [Meter.after_append] using h₀.reach
  · have hleft := h.left
    rw [List.length_cons] at hleft
    simp only
    omega
  · have hroom := h₀.room
    simp [Reader.retreat] at hroom ⊢
    omega
  · simp [count, Reader.retreat, h.past, h.looked]
    omega

end Reader

/-! ## A whole source -/

/-- The tape of a whole source. -/
def Tape.ofSource {meter : Meter π} (lawful : meter.Lawful) (source : List Delivery) : Tape π :=
  ⟨meter, lawful, delivered source, source.length, failureOf source, behindFailure source⟩

theorem Reader.ofSource_at {meter : Meter π} (lawful : meter.Lawful) (source : List Delivery) :
    (Reader.ofSource meter source).At (.ofSource lawful source) [] [] := by
  refine ⟨rfl, rfl, rfl, ?_, rfl, rfl, rfl, rfl, ?_, rfl, ?_, rfl⟩
  · simp [Tape.ofSource, ofSource, unread]
  · simp [ofSource]
  · simp [Tape.ofSource, ofSource, fate]

end Diagram
