import Diagram.Proofs.Logic

/-!
What lasts while reading goes on. Problems are only ever added, so that what holds of the problems
behind one part of the grammar can be kept through the parts that follow it.

`Leaves g Q` is for parts of which something can be said wherever the reader stands.
-/
namespace Diagram.Grammar

variable {π α β σ : Type} {F : Frame π}

/-- What holds of some problems holds when more have been noticed. -/
def Lasting (H : List (Problem π) → Prop) : Prop :=
  ∀ xs ys, xs <:+ ys → H xs → H ys

/-- A problem has been noticed that starts at a place. -/
def Noticed (cause : Cause) (start : π) (problems : List (Problem π)) : Prop :=
  ∃ x ∈ problems, x.cause = cause ∧ x.start = .place start

theorem Noticed.lasting (cause : Cause) (start : π) : Lasting (Noticed cause start) := by
  intro xs ys hsuffix ⟨x, hx, hnoticed⟩
  exact ⟨x, hsuffix.subset hx, hnoticed⟩

/-! ## Parts that are read from a place -/

namespace Ensures

variable {P : State π → Prop} {Q : β → State π → Prop} {H : α → List (Problem π) → Prop}

/-- A part of the grammar that something follows; what holds of its result lasts. -/
theorem callLasting {g : Grammar π α} {f : α → Grammar π β} {m : Nat} {R : α → Nat → Prop}
    (hH : ∀ a, Lasting (H a)) (hreads : Ensures P g (Onward F m R))
    (hheld : Ensures P g fun a s => H a s.problems)
    (hf : ∀ a q, m ≤ q.length → R a q.length →
      Ensures (State.At F q []) (f a) fun b s => H a s.problems → Q b s) :
    Ensures P (g >>= f) Q := by
  intro s hs
  obtain ⟨q, hq, hat, hR⟩ := hreads s hs
  exact hf _ q hq hR _ hat (hH _ _ _ ((f (g s).1).grows (g s).2) (hheld s hs))

/-- A part of the grammar one level deeper. -/
theorem nestedLasting {g : Grammar π α} {f : α → Grammar π β} {R : α → Nat → Prop} {p : List Char}
    (hH : ∀ a, Lasting (H a))
    (hreads : Ensures (State.At F.deeper p []) g (Onward F.deeper p.length R))
    (hheld : Ensures (State.At F.deeper p []) g fun a s => H a s.problems)
    (hf : ∀ a q, p.length ≤ q.length → Ensures (State.At F q []) (f a) fun b s =>
      H a s.problems → Q b s) :
    Ensures (State.At F p []) (Grammar.nested g >>= f) Q := by
  intro s hs
  have hdeeper : State.At F.deeper p [] { s with depth := s.depth + 1 } :=
    ⟨hs.reader, congrArg (· + 1) hs.depth, hs.limit, hs.inGroup⟩
  obtain ⟨q, hq, hs', -⟩ := hreads _ hdeeper
  have hheld := hheld _ hdeeper
  rw [bind_apply, nested_apply hs'.depth_ne_zero]
  generalize g { s with depth := s.depth + 1 } = after at hs' hheld
  have hat : State.At F q [] { after.2 with depth := after.2.depth - 1 } :=
    ⟨hs'.reader, congrArg (· - 1) hs'.depth, hs'.limit, hs'.inGroup⟩
  have hgrows := (f after.1).grows { after.2 with depth := after.2.depth - 1 }
  exact hf after.1 q hq _ hat (hH _ _ _ hgrows hheld)

end Ensures

/-- What every step keeps holds of what a repetition gathers. -/
theorem repeating_lasting {step : σ → Grammar π (Next σ)} {I R : σ → Nat → Prop} {g : σ}
    {p : List Char} {J : σ → List (Problem π) → Prop} (hJ : ∀ g, Lasting (J g))
    (hreads : ∀ g p, I g p.length →
      Ensures (State.At F p []) (step g) (Steps F p.length I R))
    (hstep : ∀ g q, p.length ≤ q.length → Ensures (State.At F q []) (step g) fun next s =>
      J g s.problems → J next.gathered s.problems)
    (hI : I g p.length) (hg : ∀ xs, J g xs) :
    Ensures (State.At F p []) (repeating step g) fun g' s => J g' s.problems := by
  refine fun s hs => repeating_holds (I := fun g i => p.length ≤ i ∧ I g i)
    (J := fun g s => J g s.problems) (S := fun g s => J g s.problems) (Steps.onward hreads)
    (fun g q hI s' ⟨hs', hheld⟩ => ?_) ⟨Nat.le_refl _, hI⟩ s ⟨hs, hg _⟩
  have hafter := hstep g q hI.1 s' hs' (hJ g _ _ ((step g).grows s') hheld)
  cases hnext : (step g s').1 with
  | again g' | stop g' =>
    rw [hnext] at hafter
    exact hafter

/-! ## Parts that may be read from anywhere -/

/-- Wherever `g` starts, `Q` holds of its result and the problems noticed until then. -/
def Leaves (g : Grammar π α) (Q : α → List (Problem π) → Prop) : Prop :=
  ∀ s, Q (g s).1 (g s).2.problems

namespace Leaves

variable {Q : β → List (Problem π) → Prop}

theorem pure {b : β} (h : ∀ xs, Q b xs) : Leaves (Pure.pure b) Q := fun s => h s.problems

theorem ite {c : Prop} [Decidable c] {g g' : Grammar π β} (h : c → Leaves g Q)
    (h' : ¬c → Leaves g' Q) : Leaves (if c then g else g') Q := by
  split
  · exact h ‹c›
  · exact h' ‹¬c›

/-- What comes first says nothing about the result. -/
theorem skip {g : Grammar π α} {f : α → Grammar π β} (hf : ∀ a, Leaves (f a) Q) :
    Leaves (g >>= f) Q :=
  fun s => hf (g s).1 (g s).2

/-- What holds of the first result, whatever has been noticed, is known of it afterwards. -/
theorem call {g : Grammar π α} {f : α → Grammar π β} {R : α → Prop} (hg : Leaves g fun a _ => R a)
    (hf : ∀ a, R a → Leaves (f a) Q) : Leaves (g >>= f) Q :=
  fun s => hf (g s).1 (hg s) (g s).2

theorem callLasting {g : Grammar π α} {f : α → Grammar π β} {H : α → List (Problem π) → Prop}
    (hH : ∀ a, Lasting (H a)) (hg : Leaves g H)
    (hf : ∀ a, Leaves (f a) fun b xs => H a xs → Q b xs) : Leaves (g >>= f) Q :=
  fun s => hf (g s).1 (g s).2 (hH _ _ _ ((f (g s).1).grows (g s).2) (hg s))

/-- A problem that is reported stays reported. -/
theorem report {cause : Cause} {start stop : π} {f : Unit → Grammar π β}
    (hf : Leaves (f ()) fun b xs => Noticed cause start xs → Q b xs) :
    Leaves (Grammar.report cause start stop >>= f) Q :=
  .callLasting (H := fun _ => Noticed cause start) (fun _ => Noticed.lasting cause start)
    (fun _ => ⟨_, List.mem_cons_self, rfl, rfl⟩) fun _ => hf

theorem reportToHere {cause : Cause} {start : π} {f : Unit → Grammar π β}
    (hf : Leaves (f ()) fun b xs => Noticed cause start xs → Q b xs) :
    Leaves (Grammar.reportToHere cause start >>= f) Q := by
  rw [Grammar.reportToHere, bind_assoc]
  exact .skip fun _ => .report hf

/-- What every step keeps is kept from anywhere on. -/
theorem repeatWithin {step : σ → Grammar π (Next σ)} {J : σ → List (Problem π) → Prop}
    (hJ : ∀ g, Lasting (J g))
    (hstep : ∀ g, Leaves (step g) fun next xs => J g xs → J next.gathered xs) (n : Nat) {g : σ}
    {s : State π} (h : J g s.problems) :
    J (repeatWithin step n g s).1 (repeatWithin step n g s).2.problems := by
  induction n generalizing g s with
  | zero => exact h
  | succ n ih =>
    have hafter := hstep g s (hJ g _ _ ((step g).grows s) h)
    cases hnext : (step g s).1 with
    | stop g' =>
      rw [hnext] at hafter
      rw [repeatWithin_stop hnext]
      exact hafter
    | again g' =>
      rw [hnext] at hafter
      by_cases hleft : (step g s).2.reader.left < s.reader.left
      · rw [repeatWithin_again hnext hleft]
        exact ih hafter
      · rw [repeatWithin_stalled hnext hleft]
        exact hafter

/-- What every step keeps holds of what a repetition gathers. -/
theorem repeating {step : σ → Grammar π (Next σ)} {J : σ → List (Problem π) → Prop} {g : σ}
    (hJ : ∀ g, Lasting (J g))
    (hstep : ∀ g, Leaves (step g) fun next xs => J g xs → J next.gathered xs)
    (hg : ∀ xs, J g xs) : Leaves (repeating step g) J :=
  fun s => Leaves.repeatWithin hJ hstep (s.reader.left + 1) (hg _)

end Leaves

end Diagram.Grammar
