import Diagram.Proofs.Gap
import Diagram.Proofs.Logic

/-!
Where problems lie. `Notices t P g` says that, from states with `P`, every problem that `g` notices
lies in the text of `t`: it goes from one place to a later one. The one exception is a missing
value, whose problem starts one colon's width in front of where it stops, whatever stands there.
Where an item of a sequence is missing, its problem goes over the one character that is skipped for
it.

There is one rule for each step of the grammar. What a step does to the reader is taken from the
rule that `Ensures` has for it.
-/
namespace Diagram

variable {π α β σ : Type}

/-- A problem lies in the text. -/
inductive Problem.Lies (t : Tape π) : Problem π → Prop
  /-- From one place to a later one. -/
  | between {cause : Cause} {i j : Nat} (hij : i ≤ j) (hj : j ≤ t.text.length)
      (hcause : ∀ c, cause ≠ .invalidItemStart c) : Lies t ⟨cause, .place (t.mark i), t.mark j⟩
  /-- Over the character that is skipped for an item, or nothing at the end of the text. -/
  | skipped {c : Char} {i : Nat} (hi : i ≤ t.text.length) (h : Skips t.text c i) :
      Lies t ⟨.invalidItemStart c, .place (t.mark i), t.mark (min (i + 1) t.text.length)⟩
  /-- One colon's width. -/
  | atColon {j : Nat} (hj : j ≤ t.text.length) :
      Lies t ⟨.missingValue, .colonBefore (t.mark j), t.mark j⟩

namespace Grammar

/-- From the state `s`, every problem that `g` notices lies in the text. -/
def NoticesFrom (t : Tape π) (g : Grammar π α) (s : State π) : Prop :=
  ∀ x ∈ (g s).2.problems, x ∈ s.problems ∨ x.Lies t

/-- From states with `P`, every problem that `g` notices lies in the text. -/
def Notices (t : Tape π) (P : State π → Prop) (g : Grammar π α) : Prop :=
  ∀ s, P s → NoticesFrom t g s

/-- `g` notices nothing. -/
def Quiet (g : Grammar π α) : Prop :=
  ∀ s, (g s).2.problems = s.problems

/-! ## Parts that notice nothing -/

namespace Quiet

theorem pure {a : α} : Quiet (Pure.pure a : Grammar π α) := fun _ => rfl

theorem reading (step : Reader π → α × Reader π) : Quiet (reading step) := fun _ => rfl

theorem adjusting (step : Reader π → Reader π) : Quiet (adjusting step) := fun _ => rfl

theorem bind {g : Grammar π α} {f : α → Grammar π β} (hg : Quiet g) (hf : ∀ a, Quiet (f a)) :
    Quiet (g >>= f) :=
  fun s => (hf _ _).trans (hg s)

theorem ite {c : Prop} [Decidable c] {g g' : Grammar π α} (h : Quiet g) (h' : Quiet g') :
    Quiet (if c then g else g') := by
  split
  · exact h
  · exact h'

/-- A reader that is moved, and what is passed on then. -/
theorem moved {step : Reader π → Reader π} {a : α} :
    Quiet (Grammar.adjusting step >>= fun _ => Pure.pure a) :=
  .bind (.adjusting step) fun _ => .pure

/-- What looks for something goes on whether it is there or not. -/
theorem looking {g : Grammar π (Option α)} {f : Option α → Grammar π β} (hg : Quiet g)
    (hnone : Quiet (f none)) (hsome : ∀ a, Quiet (f (some a))) : Quiet (g >>= f) := by
  refine .bind hg fun a => ?_
  cases a with
  | none => exact hnone
  | some a => exact hsome a

theorem whenever {b : Bool} {g : Grammar π Unit} (h : Quiet g) : Quiet (whenever b g) :=
  .ite h .pure

theorem before {p : π} {c : Char} : Quiet (before p c) := reading _

theorem beforeAll {p : π} {cs : List Char} : Quiet (beforeAll p cs) := by
  induction cs generalizing p with
  | nil => exact .pure
  | cons c cs ih => exact .bind .before fun _ => ih

theorem placeOf {c : Char} : Quiet (placeOf c : Grammar π π) :=
  .bind (fun _ => rfl) fun _ => .before

theorem peekOnLine : Quiet (peekOnLine : Grammar π (Option Char)) :=
  .looking (.reading _) .pure fun _ => .ite .pure .moved

theorem acceptExactly {cs : List Char} : Quiet (acceptExactly cs : Grammar π Bool) :=
  .looking (.reading _) .pure fun _ => .ite .moved .moved

theorem outsideGroup : Quiet (outsideGroup : Grammar π Unit) :=
  .bind (fun _ => rfl) fun _ => .whenever (.adjusting _)

theorem ascend : Quiet (ascend : Grammar π Unit) :=
  .bind (fun _ => rfl) fun _ => .bind (.whenever (.adjusting _)) fun _ _ => rfl

theorem nested {g : Grammar π α} (h : Quiet g) : Quiet (nested g) :=
  .bind (fun _ => rfl) fun _ => .bind h fun _ => .bind .ascend fun _ => .pure

theorem repeatWithin {step : σ → Grammar π (Next σ)} (h : ∀ g, Quiet (step g)) (n : Nat) (g : σ) :
    Quiet (repeatWithin step n g) := by
  induction n generalizing g with
  | zero => exact .bind (.adjusting _) fun _ => .pure
  | succ n ih =>
    refine .bind (fun _ => rfl) fun _ => .bind (h g) fun next => ?_
    cases next with
    | stop g => exact .pure
    | again g =>
      exact .bind (fun _ => rfl) fun _ => .ite (ih g) (.bind (.adjusting _) fun _ => .pure)

theorem repeating {step : σ → Grammar π (Next σ)} (h : ∀ g, Quiet (step g)) (g : σ) :
    Quiet (repeating step g) :=
  .bind (fun _ => rfl) fun n => .repeatWithin h (n + 1) g

end Quiet

/-! ## Parts whose problems lie in the text -/

namespace Notices

variable {t : Tape π} {F : Frame π} {p l : List Char} {P : State π → Prop}

theorem quiet {g : Grammar π α} (h : Quiet g) : Notices t P g :=
  fun s _ _ hx => .inl (h s ▸ hx)

theorem pure {a : α} : Notices t P (Pure.pure a) := quiet .pure

theorem ite {c : Prop} [Decidable c] {g g' : Grammar π α} (h : c → Notices t P g)
    (h' : ¬c → Notices t P g') : Notices t P (if c then g else g') := by
  split
  · exact h ‹c›
  · exact h' ‹¬c›

/-- A part that something follows: what `Ensures` knows of the states behind it is known there. -/
theorem after {g : Grammar π α} {f : α → Grammar π β} (hg : Notices t P g)
    (h : Ensures P (g >>= Pure.pure) fun a => NoticesFrom t (f a)) : Notices t P (g >>= f) := by
  intro s hs x hx
  obtain hx | hlies := h s hs x hx
  · exact hg s hs x hx
  · exact .inr hlies

/-- A step that notices nothing. -/
theorem step {g : Grammar π α} {f : α → Grammar π β} (hg : Quiet g)
    (h : Ensures P (g >>= Pure.pure) fun a => NoticesFrom t (f a)) : Notices t P (g >>= f) :=
  .after (.quiet hg) h

theorem call {g : Grammar π α} {f : α → Grammar π β} {m : Nat} {R : α → Nat → Prop}
    (hg : Notices t P g) (hreads : Ensures P g (Onward F m R))
    (hf : ∀ a q, m ≤ q.length → R a q.length → Notices t (State.At F q []) (f a)) :
    Notices t P (g >>= f) :=
  .after hg (.call hreads hf)

/-- A part whose result is passed on in another form. -/
theorem mapped {g : Grammar π α} {k : α → β} (hg : Notices t P g) :
    Notices t P (g >>= fun a => Pure.pure (k a)) :=
  .after hg fun _ _ _ hx => .inl hx

/-- No more than the text is consumed and looked at. -/
theorem bounded {g : Grammar π α}
    (h : p.length + l.length ≤ F.text.length → Notices t (State.At F p l) g) :
    Notices t (State.At F p l) g :=
  fun s hs => h hs.reader.length_le s hs

/-- What has been looked at first is the next character of the text. -/
theorem known {c : Char} {g : Grammar π α}
    (h : F.text[p.length]? = some c → Notices t (State.At F p (l ++ [c])) g) :
    Notices t (State.At F p (l ++ [c])) g :=
  fun s hs => h (by simp [← hs.reader.text]) s hs

/-- The character consumed last was the next one of the text. -/
theorem known_of_consumed {c : Char} {g : Grammar π α}
    (h : F.text[p.length]? = some c → Notices t (State.At F (c :: p) l) g) :
    Notices t (State.At F (c :: p) l) g :=
  fun s hs => h (Reader.At.known (b := []) hs.reader) s hs

/-! ### Steps of the reader -/

section

variable {f : Option Char → Grammar π β}

theorem peek (hnone : Notices t (State.At F p []) (f none))
    (hsome : ∀ c, Notices t (State.At F p (c :: l)) (f (some c))) :
    Notices t (State.At F p l) (Grammar.peek >>= f) :=
  .step (.reading _) (.peek hnone hsome)

theorem read (hnone : Notices t (State.At F p []) (f none))
    (hsome : ∀ c, Notices t (State.At F (c :: p) []) (f (some c))) :
    Notices t (State.At F p []) (Grammar.read >>= f) :=
  .step (.reading _) (.read hnone hsome)

theorem readNext {c : Char} {u : List Char} (hu : F.text.drop p.length = c :: u)
    (h : Notices t (State.At F (c :: p) []) (f (some c))) :
    Notices t (State.At F p []) (Grammar.read >>= f) :=
  .step (.reading _) (.readNext hu h)

theorem readNothing (hu : F.text.drop p.length = []) (h : Notices t (State.At F p []) (f none)) :
    Notices t (State.At F p []) (Grammar.read >>= f) :=
  .step (.reading _) (.readNothing hu h)

/-- A character that is known to come next is found there. -/
theorem peekKnown {c : Char} (hc : F.text[p.length]? = some c)
    (h : Notices t (State.At F p [c]) (f (some c))) :
    Notices t (State.At F p []) (Grammar.peek >>= f) :=
  .step (.reading _) (.peekKnown hc h)

theorem peekOnLine (hnone : Notices t (State.At F p []) (f none))
    (hsome : ∀ b c, isBlank c = false → Notices t (State.At F p (c :: (b ++ l))) (f (some c))) :
    Notices t (State.At F p l) (Grammar.peekOnLine >>= f) :=
  .step .peekOnLine (.peekOnLine hnone hsome)

theorem readVisible
    (hnone : p.length ≤ F.text.length → Notices t (State.At F F.text.reverse []) (f none))
    (hsome : ∀ b c, isBlank c = false →
      Notices t (State.At F (c :: (b ++ p)) []) (f (some c))) :
    Notices t (State.At F p []) (Grammar.readVisible >>= f) :=
  .step (.reading _) (.readVisible hnone hsome)

end

theorem peekVisible {f : Option (Char × Nat) → Grammar π β}
    (hnone : Notices t (State.At F p []) (f none))
    (hsome : ∀ b c, isBlank c = false →
      Notices t (State.At F p (c :: (b ++ l))) (f (some (c, b.count '\n')))) :
    Notices t (State.At F p l) (Grammar.peekVisible >>= f) :=
  .step (.reading _) (.peekVisible hnone hsome)

theorem accept {f : Unit → Grammar π β} (h : Notices t (State.At F (l ++ p) []) (f ())) :
    Notices t (State.At F p l) (Grammar.accept >>= f) :=
  .step (.adjusting _) (.accept h)

theorem retreat {f : Unit → Grammar π β} (h : Notices t (State.At F p []) (f ())) :
    Notices t (State.At F p l) (Grammar.retreat >>= f) :=
  .step (.adjusting _) (.retreat h)

theorem putBack {c : Char} {f : Unit → Grammar π β} (hc : c ≠ '\n')
    (h : Notices t (State.At F p []) (f ())) :
    Notices t (State.At F (c :: p) l) (Grammar.putBack c >>= f) :=
  .step (.adjusting _) (.putBack hc h)

/-! ### Places and levels -/

theorem here {f : π → Grammar π β} (h : Notices t (State.At F p l) (f (F.mark p.length))) :
    Notices t (State.At F p l) (Grammar.here >>= f) :=
  .step (fun _ => rfl) (.here h)

/-- The place behind what has been looked at is the one behind the character looked at last. -/
theorem lookedBehind {b : List Char} {c : Char} {f : π → Grammar π β}
    (h : ∀ i, F.text[i]? = some c → Notices t (State.At F p (c :: b)) (f (F.mark (i + 1)))) :
    Notices t (State.At F p (c :: b)) (Grammar.lookedPlace >>= f) := by
  refine .step (fun _ => rfl) (.lookedPlace fun s hs => ?_)
  have hknown : F.text[(b ++ p).length]? = some c := Reader.At.known (b := []) hs.reader.accept
  have hlength : p.length + (c :: b).length = (b ++ p).length + 1 := by
    simp
    omega
  rw [hlength]
  exact h _ hknown s hs

theorem placeOf {c : Char} {f : π → Grammar π β} (hc : c ≠ '\n')
    (h : Notices t (State.At F (c :: p) []) (f (F.mark p.length))) :
    Notices t (State.At F (c :: p) []) (Grammar.placeOf c >>= f) :=
  .step .placeOf (.placeOf hc h)

/-- The place in front of a character of the text. -/
theorem before {i : Nat} {c : Char} {f : π → Grammar π β} (hi : F.text[i]? = some c)
    (hc : c ≠ '\n') (h : Notices t (State.At F p l) (f (F.mark i))) :
    Notices t (State.At F p l) (Grammar.before (F.mark (i + 1)) c >>= f) := by
  refine .step .before (.before hc ?_)
  rw [Tape.mark_before hi hc]
  exact h

theorem beforeAll {b q cs : List Char} {n : Nat} {f : π → Grammar π β} (hq : q = b ++ (cs ++ p))
    (hn : n = (cs ++ p).length) (hcs : ∀ c ∈ cs, c ≠ '\n')
    (h : Notices t (State.At F q l) (f (F.mark p.length))) :
    Notices t (State.At F q l) (Grammar.beforeAll (F.mark n) cs >>= f) :=
  .step .beforeAll (.beforeAll hq hn hcs h)

theorem inGroup {f : Bool → Grammar π β} (h : Notices t (State.At F p l) (f F.inGroup)) :
    Notices t (State.At F p l) (Grammar.inGroup >>= f) :=
  .step (fun _ => rfl) (.inGroup h)

theorem atLimit {f : Bool → Grammar π β}
    (h : Notices t (State.At F p l) (f (decide (F.limit ≤ F.depth)))) :
    Notices t (State.At F p l) (Grammar.atLimit >>= f) :=
  .step (fun _ => rfl) (.atLimit h)

theorem setGroup {b : Bool} {f : Unit → Grammar π β}
    (h : Notices t (State.At (F.grouped b) p l) (f ())) :
    Notices t (State.At F p l) (Grammar.setGroup b >>= f) :=
  .step (fun _ => rfl) (.setGroup h)

theorem outsideGroup {f : Unit → Grammar π β} (hF : F.inGroup = false)
    (h : Notices t (State.At F p l) (f ())) :
    Notices t (State.At F p l) (Grammar.outsideGroup >>= f) :=
  .step .outsideGroup (.outsideGroup hF h)

theorem noteSkip {start : π} {f : Unit → Grammar π β} (h : Notices t (State.At F p l) (f ())) :
    Notices t (State.At F p l) (Grammar.noteSkip start >>= f) :=
  .step (fun _ => rfl) (.noteSkip h)

theorem nested {g : Grammar π α} {f : α → Grammar π β} {R : α → Nat → Prop}
    (hg : Notices t (State.At F.deeper p []) g)
    (hreads : Ensures (State.At F.deeper p []) g (Onward F.deeper p.length R))
    (hf : ∀ a q, p.length ≤ q.length → R a q.length → Notices t (State.At F q []) (f a)) :
    Notices t (State.At F p []) (Grammar.nested g >>= f) := by
  refine .after (fun s hs x hx => ?_) (.nested hreads hf)
  have hdeeper : State.At F.deeper p [] { s with depth := s.depth + 1 } :=
    ⟨hs.reader, congrArg (· + 1) hs.depth, hs.limit, hs.inGroup⟩
  obtain ⟨q, -, hs', -⟩ := hreads _ hdeeper
  rw [nested_apply hs'.depth_ne_zero] at hx
  exact hg _ hdeeper x hx

/-! ### Problems -/

/-- A report that something follows. -/
theorem next {g : Grammar π Unit} {f : Unit → Grammar π β} (hg : Notices t (State.At F p l) g)
    (hstays : Ensures (State.At F p l) g fun _ => State.At F p l)
    (hf : Notices t (State.At F p l) (f ())) : Notices t (State.At F p l) (g >>= f) :=
  .after hg fun s hs => hf _ (hstays s hs)

theorem whenever {b : Bool} {g : Grammar π Unit} (h : b = true → Notices t P g) :
    Notices t P (Grammar.whenever b g) :=
  .ite h fun _ => .pure

theorem report {cause : Cause} {i j : Nat} (hij : i ≤ j) (hj : j ≤ F.text.length)
    (hcause : ∀ c, cause ≠ .invalidItemStart c) :
    Notices F.toTape P (Grammar.report cause (F.mark i) (F.mark j)) := by
  intro s _ x hx
  obtain rfl | hx := List.mem_cons.mp hx
  · exact .inr (.between hij hj hcause)
  · exact .inl hx

theorem reportToHere {cause : Cause} {i : Nat} (hi : i ≤ p.length)
    (hcause : ∀ c, cause ≠ .invalidItemStart c) :
    Notices F.toTape (State.At F p l) (Grammar.reportToHere cause (F.mark i)) :=
  .bounded fun hlength => .here (.report hi (by omega) hcause)

theorem reportToReach {cause : Cause} {i : Nat} (hi : i ≤ p.length)
    (hcause : ∀ c, cause ≠ .invalidItemStart c) :
    Notices F.toTape (State.At F p l) (Grammar.reportToReach cause (F.mark i)) := by
  intro s hs x hx
  obtain rfl | hx := List.mem_cons.mp hx
  · right
    show Problem.Lies F.toTape ⟨cause, .place (F.mark i), s.reader.reach⟩
    rw [hs.reader.reachMark]
    have hcount := hs.reader.count_eq
    exact .between (by omega) hs.reader.count_le hcause
  · exact .inl hx

/-- The character that has been skipped for an item. -/
theorem reportSkipped {c : Char} {i : Nat} (hi : i ≤ F.text.length) (h : Skips F.text c i)
    (hp : p.length = min (i + 1) F.text.length) :
    Notices F.toTape (State.At F p []) (Grammar.reportToHere (.invalidItemStart c) (F.mark i)) := by
  refine .here fun s _ x hx => ?_
  rw [hp] at hx
  obtain rfl | hx := List.mem_cons.mp hx
  · exact .inr (.skipped hi h)
  · exact .inl hx

theorem reportMissingValue :
    Notices F.toTape (State.At F p l) (Grammar.reportAtColon .missingValue (F.mark p.length)) := by
  intro s hs x hx
  obtain rfl | hx := List.mem_cons.mp hx
  · exact .inr (.atColon (Nat.le_trans (Nat.le_add_right _ _) hs.reader.length_le))
  · exact .inl hx

/-! ### Repetition -/

/-- The steps of a repetition are taken behind where it starts. -/
theorem repeating {step : σ → Grammar π (Next σ)} {I Q : σ → Nat → Prop}
    (hreads : ∀ g p, I g p.length → Ensures (State.At F p []) (step g) (Steps F p.length I Q))
    (hstep : ∀ g q, p.length ≤ q.length → I g q.length → Notices t (State.At F q []) (step g))
    {g : σ} (hg : I g p.length) : Notices t (State.At F p []) (Grammar.repeating step g) := by
  intro s hs
  refine repeating_holds (I := fun g i => p.length ≤ i ∧ I g i)
    (J := fun _ s' => ∀ x ∈ s'.problems, x ∈ s.problems ∨ x.Lies t)
    (S := fun _ s' => ∀ x ∈ s'.problems, x ∈ s.problems ∨ x.Lies t) (Steps.onward hreads)
    (fun g q ⟨hq, hI⟩ s' ⟨hs', hJ⟩ => ?_) ⟨Nat.le_refl _, hg⟩ s ⟨hs, fun _ hx => .inl hx⟩
  have hheld : ∀ x ∈ (step g s').2.problems, x ∈ s.problems ∨ x.Lies t := fun x hx =>
    (hstep g q hq hI s' hs' x hx).elim (hJ x) .inr
  cases (step g s').1 with
  | again g => exact hheld
  | stop g => exact hheld

end Notices

end Grammar

end Diagram
