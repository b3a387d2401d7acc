import Diagram.Proofs.Tape

/-!
When a source has ended or failed it is over, and a reader asks it no more. Every operation that
finds no character leaves the source over, and once it is over the operations are deaf to it: what
it would deliver makes no difference to them.
-/
namespace Diagram.Reader

variable {π : Type}

/-! ## When the source is over

Asking the source may end it, and that is all that is known of it afterwards: where no character
came, it is over. -/

theorem next_over (r : Reader π) : r.next.2.ended = (r.ended || r.next.1.isNone) := by
  unfold next
  split
  · simp
  unfold pull
  split
  · simp_all
  split <;> simp_all

theorem next_past (r : Reader π) : r.next.2.past = r.past := by
  unfold next pull
  repeat' split
  all_goals rfl

theorem next_looked (r : Reader π) : r.next.2.looked = r.looked := by
  unfold next pull
  repeat' split
  all_goals rfl

theorem peek_over (r : Reader π) : r.peek.2.ended = (r.ended || r.peek.1.isNone) := by
  have hnext := next_over r
  unfold peek
  split
  · simp_all [lookAt]
  · simp_all [Reader.retreat]

theorem peek_looked {r r' : Reader π} {c : Char} (h : r.peek = (some c, r')) :
    r'.looked = c :: r.looked := by
  have hnext := next_looked r
  unfold peek at h
  split at h
  · rename_i x r₁ h₁
    simp only [Prod.mk.injEq, Option.some.injEq] at h
    obtain ⟨rfl, rfl⟩ := h
    rw [h₁] at hnext
    exact congrArg (x :: ·) hnext
  · simp at h

/-- Reading starts with nothing looked at. -/
def unlooked (r : Reader π) : Reader π :=
  if r.looked.isEmpty then r else (r.note .readOverLookahead).retreat

theorem read_unlooked (r : Reader π) : r.read =
    match r.unlooked.next with
    | (some c, r) => (some c, r.consume c)
    | (none, r) => (none, r.retreat) := rfl

theorem unlooked_over (r : Reader π) : r.unlooked.ended = r.ended := by
  unfold unlooked
  split <;> rfl

theorem unlooked_past (r : Reader π) : r.unlooked.past = r.past := by
  unfold unlooked
  split <;> rfl

theorem read_over (r : Reader π) : r.read.2.ended = (r.ended || r.read.1.isNone) := by
  have hnext := next_over r.unlooked
  rw [unlooked_over] at hnext
  rw [read_unlooked]
  split
  · simp_all [consume]
  · simp_all [Reader.retreat]

theorem read_past {r r' : Reader π} {c : Char} (h : r.read = (some c, r')) :
    r'.past = c :: r.past := by
  have hnext := next_past r.unlooked
  rw [unlooked_past] at hnext
  rw [read_unlooked] at h
  split at h
  · rename_i x r₁ h₁
    simp only [Prod.mk.injEq, Option.some.injEq] at h
    obtain ⟨rfl, rfl⟩ := h
    rw [h₁] at hnext
    exact congrArg (x :: ·) hnext
  · simp at h

theorem peekMany_over (n : Nat) (r : Reader π) :
    (r.peekMany n).2.ended = (r.ended || (r.peekMany n).1.isNone) := by
  induction n generalizing r with
  | zero => simp [peekMany]
  | succ n ih =>
    have hpeek := peek_over r
    unfold peekMany
    split
    · simp_all
    · rename_i c r₁ h₁
      have hrest := ih r₁
      split <;> simp_all

/-- A search that has not run out of steps leaves the source over if it finds nothing, and as it was
if it finds something. -/
theorem peekVisibleWithin_over (n k : Nat) (r : Reader π) :
    (r.peekVisibleWithin n k).2.ended = (r.ended || (r.peekVisibleWithin n k).1.isNone) ∨
      (r.peekVisibleWithin n k).2.looked.length = r.looked.length + n := by
  induction n generalizing k r with
  | zero => exact .inr rfl
  | succ n ih =>
    have hpeek := peek_over r
    unfold peekVisibleWithin
    split
    · exact .inl (by simp_all)
    · rename_i c r₁ h₁
      have hlooked := peek_looked h₁
      split
      · rcases ih (if c = '\n' then k + 1 else k) r₁ with hrest | hrest
        · exact .inl (by simp_all)
        · exact .inr (by rw [hrest, hlooked, List.length_cons]; omega)
      · exact .inl (by simp_all)

theorem readVisibleWithin_over (n : Nat) (r : Reader π) :
    (r.readVisibleWithin n).2.ended = (r.ended || (r.readVisibleWithin n).1.isNone) ∨
      (r.readVisibleWithin n).2.past.length = r.past.length + n := by
  induction n generalizing r with
  | zero => exact .inr rfl
  | succ n ih =>
    have hread := read_over r
    unfold readVisibleWithin
    split
    · exact .inl (by simp_all)
    · rename_i c r₁ h₁
      have hpast := read_past h₁
      split
      · rcases ih r₁ with hrest | hrest
        · exact .inl (by simp_all)
        · exact .inr (by rw [hrest, hpast, List.length_cons]; omega)
      · exact .inl (by simp_all)

theorem putBack_over (c : Char) (r : Reader π) : (r.putBack c).ended = r.ended := by
  simp only [Reader.putBack, checkStepBack]
  split <;> split <;> rfl

/-! ## A source that is over is not asked -/

/-- The reader with another source. -/
def refill (source : List Delivery) (r : Reader π) : Reader π :=
  { r with source }

/-- What an operation does has nothing to do with a source that is over, and the source is left as
it is. -/
structure Deaf {α : Type} (f : Reader π → α × Reader π) : Prop where
  ended : ∀ r, r.ended = true → (f r).2.ended = true
  refill : ∀ r source, r.ended = true → f (r.refill source) = ((f r).1, (f r).2.refill source)

/-- Where the first of two operations finds nothing, the second is left out. -/
def andThen {α β : Type} (f : Reader π → Option α × Reader π)
    (g : α → Reader π → Option β × Reader π) (r : Reader π) : Option β × Reader π :=
  match f r with
  | (none, r) => (none, r)
  | (some a, r) => g a r

theorem Deaf.andThen {α β : Type} {f : Reader π → Option α × Reader π}
    {g : α → Reader π → Option β × Reader π} (hf : Deaf f) (hg : ∀ a, Deaf (g a)) :
    Deaf (andThen f g) where
  ended r h := by
    have hended := hf.ended r h
    unfold Reader.andThen
    rcases hr : f r with ⟨_ | a, r₁⟩ <;> rw [hr] at hended
    · exact hended
    · exact (hg a).ended r₁ hended
  refill r source h := by
    have hended := hf.ended r h
    unfold Reader.andThen
    rw [hf.refill r source h]
    rcases hr : f r with ⟨_ | a, r₁⟩
    · rfl
    · rw [hr] at hended
      exact (hg a).refill r₁ source hended

theorem Deaf.answer {α : Type} (a : α) : Deaf fun r : Reader π => (a, r) where
  ended _ h := h
  refill _ _ _ := rfl

theorem Deaf.map {α β : Type} {f : Reader π → α × Reader π} (hf : Deaf f) (g : α → β) :
    Deaf fun r => (g (f r).1, (f r).2) where
  ended r h := hf.ended r h
  refill r source h := by rw [hf.refill r source h]

theorem next_deaf : Deaf (next (π := π)) where
  ended r h := by simp [next_over, h]
  refill r source h := by
    unfold next
    cases hq : r.queued <;> simp [Reader.refill, hq, pull, h]

theorem peek_deaf : Deaf (peek (π := π)) where
  ended r h := by simp [peek_over, h]
  refill r source h := by
    unfold peek
    rw [next_deaf.refill r source h]
    rcases r.next with ⟨_ | c, r₁⟩ <;> rfl

theorem read_deaf : Deaf (read (π := π)) where
  ended r h := by simp [read_over, h]
  refill r source h := by
    have hunlooked : (r.refill source).unlooked = r.unlooked.refill source := by
      unfold unlooked
      show (if r.looked.isEmpty then _ else _) = _
      split <;> rfl
    rw [read_unlooked, read_unlooked, hunlooked,
      next_deaf.refill _ source ((unlooked_over r).trans h)]
    rcases r.unlooked.next with ⟨_ | c, r₁⟩ <;> rfl

theorem peekMany_deaf (n : Nat) : Deaf (peekMany (π := π) n) := by
  induction n with
  | zero => exact .answer (some [])
  | succ n ih =>
    have hstep : peekMany (π := π) (n + 1) =
        andThen peek fun c => andThen (peekMany n) fun cs r => (some (c :: cs), r) := by
      funext r
      simp only [peekMany, andThen]
      rcases r.peek with ⟨_ | c, r₁⟩
      · rfl
      · rcases hrest : r₁.peekMany n with ⟨_ | cs, r₂⟩ <;> simp [hrest]
    rw [hstep]
    exact peek_deaf.andThen fun c => ih.andThen fun cs => .answer (some (c :: cs))

theorem readVisibleWithin_deaf (n : Nat) : Deaf (readVisibleWithin (π := π) n) := by
  induction n with
  | zero => exact .answer none
  | succ n ih =>
    have hstep : readVisibleWithin (π := π) (n + 1) =
        andThen read fun c => if isBlank c then readVisibleWithin n else fun r => (some c, r) := by
      funext r
      simp only [readVisibleWithin, andThen]
      rcases r.read with ⟨_ | c, r₁⟩
      · rfl
      · cases hc : isBlank c <;> simp [hc]
    rw [hstep]
    refine read_deaf.andThen fun c => ?_
    split
    · exact ih
    · exact .answer (some c)

theorem peekVisibleWithin_deaf (n k : Nat) : Deaf (peekVisibleWithin (π := π) n k) := by
  induction n generalizing k with
  | zero => exact .answer none
  | succ n ih =>
    have hstep : peekVisibleWithin (π := π) (n + 1) k =
        andThen peek fun c => if isBlank c then
          peekVisibleWithin n (if c = '\n' then k + 1 else k) else fun r => (some (c, k), r) := by
      funext r
      simp only [peekVisibleWithin, andThen]
      rcases r.peek with ⟨_ | c, r₁⟩
      · rfl
      · cases hc : isBlank c <;> simp [hc]
    rw [hstep]
    refine peek_deaf.andThen fun c => ?_
    split
    · exact ih _
    · exact .answer (some (c, k))

theorem putBack_deaf {α : Type} (a : α) (c : Char) :
    Deaf fun r : Reader π => (a, r.putBack c) where
  ended r h := (putBack_over c r).trans h
  refill r source h := by
    have hlast : (if (r.refill source).retreat.past.head? = some c then (r.refill source).retreat
        else (r.refill source).retreat.note .foreignPutBack) =
        (if r.retreat.past.head? = some c then r.retreat
          else r.retreat.note .foreignPutBack).refill source :=
      (apply_ite (Reader.refill source) (r.retreat.past.head? = some c) r.retreat
        (r.retreat.note .foreignPutBack)).symm
    simp only [Reader.putBack, hlast]
    unfold checkStepBack
    split <;> rfl

end Diagram.Reader
