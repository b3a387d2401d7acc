import Diagram.Proofs.Twin.Places

/-!
Repetition in two runs side by side. The runs take the same number of steps, and it does not matter
that each has its own bound for them. Where a step of the first run goes another way, either it is
the last one, or the next one decides what comes of it.
-/
namespace Diagram.Grammar

variable {π σ τ : Type} {K : Pairing π}

/-- The same step with what has been gathered in another form. -/
def Next.map (f : σ → τ) : Next σ → Next τ
  | .again g => .again (f g)
  | .stop g => .stop (f g)

/-- A repetition ends, and the result and the state satisfy `E`. -/
def Stops (E : σ → State Nat → Prop) (next : Next σ) (s : State Nat) : Prop :=
  ∃ g, next = .stop g ∧ E g s

section

variable {step₁ : σ → Grammar Nat (Next σ)} {step₂ : τ → Grammar π (Next τ)} {f : σ → τ}
  {I R : σ → Nat → Prop} {E : σ → State Nat → Prop} {E' : Next σ → State Nat → Prop}

/-- Where the first run has gone astray but wants to go on, the next step decides. -/
theorem repeatWithin_astray {P : State Nat → Prop} {n : Nat} {g : σ}
    (h : Ensures P (step₁ g) (K.Astray (Stops E))) :
    Ensures P (repeatWithin step₁ (n + 1) g) (K.Astray E) := by
  rw [repeatWithin]
  refine .asked fun m => .astray h fun htail next => ?_
  rintro s ⟨g, rfl, hE⟩
  exact .inr ⟨htail, hE⟩

theorem repeating_astray {P : State Nat → Prop} {g : σ}
    (h : Ensures P (step₁ g) (K.Astray (Stops E))) :
    Ensures P (repeating step₁ g) (K.Astray E) :=
  .asked fun _ => repeatWithin_astray h

variable {N : σ → List (Problem π)}

/-- A repetition whose first step is alike from states with `P`, and whose rest is alike from every
place behind the first. What is gathered tells what the second run has noticed of its own. -/
theorem repeatWithin_succ_notes {P : State Nat → State π → Prop} {m n : Nat} {g : σ}
    {p p' : List Char} (hP : ∀ s t, P s t → s.At K.first p [] ∧ t.At K.second p' [])
    (hle : p'.length ≤ (p ++ K.base).length)
    (hreads : Ensures (State.At K.first p []) (step₁ g) (Steps K.first p.length I R))
    (hstep : Alike K P (step₁ g) (step₂ (f g)) E'
      (Notes K (Next.map f) fun next => N next.gathered))
    (hstop : ∀ g s, E' (.stop g) s → E g s)
    (hstray : K.tail ≠ [] → ∀ g, Ensures (E' (.again g)) (step₁ g) (K.Astray (Stops E)))
    (hm : K.first.budget ≤ m + p.length)
    (hrest : ∀ g q, p.length < q.length → I g q.length → Alike K (Twin (K.noting (N g)) q [])
      (repeatWithin step₁ m g) (repeatWithin step₂ n (f g)) E (Notes K f N)) :
    Alike K P (repeatWithin step₁ (m + 1) g) (repeatWithin step₂ (n + 1) (f g)) E
      (Notes K f N) := by
  -- both repetitions see the same step; where it goes on, both have consumed something, so that
  -- neither is out of turns
  intro s t hs
  obtain ⟨hat, hat'⟩ := hP s t hs
  have hafter := hreads s hat
  have hboth := hstep s t hs
  cases hnext : (step₁ g s).1 with
  | stop g' =>
    rw [hnext] at hboth
    rw [repeatWithin_stop hnext]
    rcases hboth with (hvoid | ⟨htail, hE⟩) | ⟨hsame, q, htwin⟩
    · exact .inl (.inl hvoid)
    · exact .inl (.inr ⟨htail, hstop _ _ hE⟩)
    · rw [repeatWithin_stop hsame]
      exact .inr ⟨rfl, q, htwin⟩
  | again g' =>
    rw [hnext] at hafter hboth
    obtain ⟨q, hq, hatq, hI⟩ := hafter
    rw [repeatWithin_again hnext (hat.left_lt hatq hq)]
    rcases hboth with (hvoid | ⟨htail, hE⟩) | ⟨hsame, q', htwin⟩
    · exact .inl (stays_astray (step₁ g) (fun _ => repeatWithin step₁ m g') hvoid)
    · obtain ⟨m, rfl⟩ : ∃ k, m = k + 1 := by
        have hleft := hatq.reader.left
        exact ⟨m - 1, by omega⟩
      exact .inl (repeatWithin_astray (hstray htail g') _ hE)
    · obtain rfl : q = q' := hatq.reader.past.symm.trans htwin.first.reader.past
      have hlt : p'.length < (q ++ K.base).length := by
        simp at hle ⊢
        omega
      rw [repeatWithin_again hsame (hat'.left_lt htwin.second hlt)]
      exact hrest g' q hq hI _ _ htwin

theorem repeatWithin_notes
    (hreads : ∀ g p, I g p.length →
      Ensures (State.At K.first p []) (step₁ g) (Steps K.first p.length I R))
    (hstep : ∀ g p, I g p.length →
      Alike (K.noting (N g)) (Twin (K.noting (N g)) p []) (step₁ g) (step₂ (f g)) E'
        (Notes K (Next.map f) fun next => N next.gathered))
    (hstop : ∀ g s, E' (.stop g) s → E g s)
    (hstray : K.tail ≠ [] → ∀ g, Ensures (E' (.again g)) (step₁ g) (K.Astray (Stops E)))
    (m n : Nat) (g : σ) (p : List Char) (hg : I g p.length)
    (hm : K.first.budget < m + p.length) (hn : K.second.budget < n + (p ++ K.base).length) :
    Alike K (Twin (K.noting (N g)) p []) (repeatWithin step₁ m g) (repeatWithin step₂ n (f g)) E
      (Notes K f N) := by
  induction m generalizing n g p with
  | zero =>
    intro s t hs
    have hleft : s.reader.left + p.length = K.first.budget := hs.first.reader.left
    omega
  | succ m ih =>
    intro s t hs
    obtain ⟨n, rfl⟩ : ∃ k, n = k + 1 := by
      have hleft : t.reader.left + (p ++ K.base).length = K.second.budget := hs.second.reader.left
      exact ⟨n - 1, by omega⟩
    refine repeatWithin_succ_notes (fun _ _ h => ⟨h.first, h.second⟩) (Nat.le_refl _)
      (hreads g p hg) (hstep g p hg) hstop hstray (by omega) (fun g' q hq hI => ?_) s t hs
    exact ih n g' q hI (by omega) (by simp at hn ⊢; omega)

/-- **Repetition**: if the steps of two runs are alike, their repetitions are. -/
theorem repeating_notes {g : σ} {p : List Char} (hg : I g p.length)
    (hreads : ∀ g p, I g p.length →
      Ensures (State.At K.first p []) (step₁ g) (Steps K.first p.length I R))
    (hstep : ∀ g p, I g p.length →
      Alike (K.noting (N g)) (Twin (K.noting (N g)) p []) (step₁ g) (step₂ (f g)) E'
        (Notes K (Next.map f) fun next => N next.gathered))
    (hstop : ∀ g s, E' (.stop g) s → E g s)
    (hstray : K.tail ≠ [] → ∀ g, Ensures (E' (.again g)) (step₁ g) (K.Astray (Stops E))) :
    Alike K (Twin (K.noting (N g)) p []) (repeating step₁ g) (repeating step₂ (f g)) E
      (Notes K f N) := by
  intro s t hs
  have hleft : s.reader.left + p.length = K.first.budget := hs.first.reader.left
  have hleft' : t.reader.left + (p ++ K.base).length = K.second.budget := hs.second.reader.left
  exact repeatWithin_notes hreads hstep hstop hstray (s.reader.left + 1) (t.reader.left + 1) g p hg
    (by omega) (by omega) s t hs

/-- Repetition where no step of the first run goes another way. -/
theorem repeating_notes_never {g : σ} {p : List Char} (hg : I g p.length)
    (hreads : ∀ g p, I g p.length →
      Ensures (State.At K.first p []) (step₁ g) (Steps K.first p.length I R))
    (hstep : ∀ g p, I g p.length →
      Alike (K.noting (N g)) (Twin (K.noting (N g)) p []) (step₁ g) (step₂ (f g)) Never
        (Notes K (Next.map f) fun next => N next.gathered)) :
    Alike K (Twin (K.noting (N g)) p []) (repeating step₁ g) (repeating step₂ (f g)) Never
      (Notes K f N) :=
  repeating_notes hg hreads hstep (fun _ _ h => h.elim) (fun _ _ _ h => h.elim)

/-! ### Without problems of the second run's own -/

theorem repeatWithin_succ_alike {P : State Nat → State π → Prop} {m n : Nat} {g : σ}
    {p p' : List Char} (hP : ∀ s t, P s t → s.At K.first p [] ∧ t.At K.second p' [])
    (hle : p'.length ≤ (p ++ K.base).length)
    (hreads : Ensures (State.At K.first p []) (step₁ g) (Steps K.first p.length I R))
    (hstep : Alike K P (step₁ g) (step₂ (f g)) E' (Meets K (Next.map f)))
    (hstop : ∀ g s, E' (.stop g) s → E g s)
    (hstray : K.tail ≠ [] → ∀ g, Ensures (E' (.again g)) (step₁ g) (K.Astray (Stops E)))
    (hm : K.first.budget ≤ m + p.length)
    (hrest : ∀ g q, p.length < q.length → I g q.length →
      Alike K (Twin K q []) (repeatWithin step₁ m g) (repeatWithin step₂ n (f g)) E (Meets K f)) :
    Alike K P (repeatWithin step₁ (m + 1) g) (repeatWithin step₂ (n + 1) (f g)) E (Meets K f) :=
  repeatWithin_succ_notes (N := fun _ => []) hP hle hreads hstep hstop hstray hm hrest

theorem repeatWithin_alike
    (hreads : ∀ g p, I g p.length →
      Ensures (State.At K.first p []) (step₁ g) (Steps K.first p.length I R))
    (hstep : ∀ g p, I g p.length →
      Alike K (Twin K p []) (step₁ g) (step₂ (f g)) E' (Meets K (Next.map f)))
    (hstop : ∀ g s, E' (.stop g) s → E g s)
    (hstray : K.tail ≠ [] → ∀ g, Ensures (E' (.again g)) (step₁ g) (K.Astray (Stops E)))
    (m n : Nat) (g : σ) (p : List Char) (hg : I g p.length)
    (hm : K.first.budget < m + p.length) (hn : K.second.budget < n + (p ++ K.base).length) :
    Alike K (Twin K p []) (repeatWithin step₁ m g) (repeatWithin step₂ n (f g)) E (Meets K f) :=
  repeatWithin_notes (N := fun _ => []) hreads hstep hstop hstray m n g p hg hm hn

theorem repeating_alike {g : σ} {p : List Char} (hg : I g p.length)
    (hreads : ∀ g p, I g p.length →
      Ensures (State.At K.first p []) (step₁ g) (Steps K.first p.length I R))
    (hstep : ∀ g p, I g p.length →
      Alike K (Twin K p []) (step₁ g) (step₂ (f g)) E' (Meets K (Next.map f)))
    (hstop : ∀ g s, E' (.stop g) s → E g s)
    (hstray : K.tail ≠ [] → ∀ g, Ensures (E' (.again g)) (step₁ g) (K.Astray (Stops E))) :
    Alike K (Twin K p []) (repeating step₁ g) (repeating step₂ (f g)) E (Meets K f) :=
  repeating_notes (N := fun _ => []) hg hreads hstep hstop hstray

/-- Repetition where only the last step of the first run may go another way. -/
theorem repeating_alike_stops {g : σ} {p : List Char} (hg : I g p.length)
    (hreads : ∀ g p, I g p.length →
      Ensures (State.At K.first p []) (step₁ g) (Steps K.first p.length I R))
    (hstep : ∀ g p, I g p.length →
      Alike K (Twin K p []) (step₁ g) (step₂ (f g)) (Stops E) (Meets K (Next.map f))) :
    Alike K (Twin K p []) (repeating step₁ g) (repeating step₂ (f g)) E (Meets K f) := by
  refine repeating_alike hg hreads hstep ?_ ?_
  · rintro g s ⟨g', h, hE⟩
    cases h
    exact hE
  · rintro _ g s ⟨g', h, -⟩
    cases h

/-- Repetition where no step of the first run goes another way. -/
theorem repeating_alike_never {g : σ} {p : List Char} (hg : I g p.length)
    (hreads : ∀ g p, I g p.length →
      Ensures (State.At K.first p []) (step₁ g) (Steps K.first p.length I R))
    (hstep : ∀ g p, I g p.length →
      Alike K (Twin K p []) (step₁ g) (step₂ (f g)) Never (Meets K (Next.map f))) :
    Alike K (Twin K p []) (repeating step₁ g) (repeating step₂ (f g)) Never (Meets K f) :=
  repeating_notes_never (N := fun _ => []) hg hreads hstep

end

end Diagram.Grammar
