import Diagram.Proofs.Twin.Pairing

/-!
Reading alike. `Alike K P g₁ g₂ E Q` says that from states with `P` the two runs of a pairing come
to results and states with `Q`, unless the first run goes astray: it notices a problem that makes
the comparison void, or it ends as `E` tells at the end of the common text.

As in the logic for one run, there is one rule for each step, stated for a step that something
follows.
-/
namespace Diagram

variable {π α β : Type}

/-- The first run goes astray: it notices a problem that makes the comparison void, or what it does
at the end of its text is not what it does in front of a new line. -/
def Pairing.Astray (K : Pairing π) (E : α → State Nat → Prop) (a : α) (s : State Nat) : Prop :=
  (∃ x ∈ s.problems, K.voids x.cause) ∨ (K.tail ≠ [] ∧ E a s)

/-- Nothing but blanks is left of the common text for the first run. -/
def Pairing.Spent (K : Pairing π) (s : State Nat) : Prop :=
  ∃ q, s.At K.first q [] ∧ ∀ x ∈ K.first.text.drop q.length, isBlank x = true

/-- The first run does nothing else at the end of its text. -/
def Never (_ : α) (_ : State Nat) : Prop := False

namespace Grammar

variable {α₁ α₂ β₁ β₂ σ τ : Type}

/-- From states with `P`, the first run goes astray or both come to results and states with `Q`. -/
def Alike (K : Pairing π) (P : State Nat → State π → Prop) (g₁ : Grammar Nat α) (g₂ : Grammar π β)
    (E : α → State Nat → Prop) (Q : α → β → State Nat → State π → Prop) : Prop :=
  ∀ s t, P s t → K.Astray E (g₁ s).1 (g₁ s).2 ∨ Q (g₁ s).1 (g₂ t).1 (g₁ s).2 (g₂ t).2

/-- The results are the same up to `f`, and both runs are at the same place with nothing looked
at. -/
def Meets (K : Pairing π) (f : α → β) (a : α) (b : β) (s : State Nat) (t : State π) : Prop :=
  b = f a ∧ ∃ q, Twin K q [] s t

/-- The results are the same up to `f`, and both runs are at the same place, but the second has
noticed problems of its own, which the result tells. -/
def Notes (K : Pairing π) (f : α → β) (N : α → List (Problem π)) (a : α) (b : β) (s : State Nat)
    (t : State π) : Prop :=
  Meets (K.noting (N a)) f a b s t

variable {K : Pairing π} {p l : List Char} {P : State Nat → State π → Prop}
  {E : β₁ → State Nat → Prop} {Q : β₁ → β₂ → State Nat → State π → Prop}

/-! ## The first run astray -/

/-- A comparison that is void stays void. -/
theorem stays_astray (g : Grammar Nat α) (f : α → Grammar Nat β₁) {s : State Nat}
    (hs : ∃ x ∈ (g s).2.problems, K.voids x.cause) :
    K.Astray E ((g >>= f) s).1 ((g >>= f) s).2 := by
  obtain ⟨x, hx, hvoid⟩ := hs
  exact .inl ⟨x, ((f (g s).1).grows (g s).2).subset hx, hvoid⟩

namespace Ensures

variable {P : State Nat → Prop}

theorem astray {g : Grammar Nat α} {f : α → Grammar Nat β₁} {E' : α → State Nat → Prop}
    (hg : Ensures P g (K.Astray E'))
    (hf : K.tail ≠ [] → ∀ a, Ensures (E' a) (f a) (K.Astray E)) :
    Ensures P (g >>= f) (K.Astray E) := by
  intro s hs
  rcases hg s hs with hvoid | ⟨htail, hE⟩
  · exact stays_astray _ _ hvoid
  · exact hf htail _ _ hE

theorem astray_pure {b : β₁} (htail : K.tail ≠ []) (h : ∀ s, P s → E b s) :
    Ensures P (Pure.pure b) (K.Astray E) :=
  fun s hs => .inr ⟨htail, h s hs⟩

theorem astray_void {cause : Cause} {start stop : Nat} {f : Unit → Grammar Nat β₁}
    (hvoid : K.voids cause) :
    Ensures P (Grammar.report cause start stop >>= f) (K.Astray E) :=
  fun _ _ => stays_astray _ _ ⟨⟨cause, .place start, stop⟩, List.mem_cons_self, hvoid⟩

theorem astray_report {cause : Cause} {start stop : Nat} {f : Unit → Grammar Nat β₁}
    (htail : K.tail ≠ []) :
    Ensures P (Grammar.report cause start stop >>= f) (K.Astray E) :=
  .astray_void (K.voids_of_tail htail cause)

theorem astray_reportToHere {cause : Cause} {start : Nat} {f : Unit → Grammar Nat β₁}
    (htail : K.tail ≠ []) :
    Ensures P (Grammar.reportToHere cause start >>= f) (K.Astray E) :=
  fun s _ => stays_astray _ _
    ⟨⟨cause, .place start, s.reader.place⟩, List.mem_cons_self, K.voids_of_tail htail cause⟩

theorem astray_reportToReach {cause : Cause} {start : Nat} {f : Unit → Grammar Nat β₁}
    (htail : K.tail ≠ []) :
    Ensures P (Grammar.reportToReach cause start >>= f) (K.Astray E) :=
  fun s _ => stays_astray _ _
    ⟨⟨cause, .place start, s.reader.reach⟩, List.mem_cons_self, K.voids_of_tail htail cause⟩

theorem astray_reportAtColon {cause : Cause} {stop : Nat} {f : Unit → Grammar Nat β₁}
    (htail : K.tail ≠ []) :
    Ensures P (Grammar.reportAtColon cause stop >>= f) (K.Astray E) :=
  fun _ _ => stays_astray _ _
    ⟨⟨cause, .colonBefore stop, stop⟩, List.mem_cons_self, K.voids_of_tail htail cause⟩

end Ensures

/-! ## Sequencing -/

namespace Alike

theorem pure {a : β₁} {b : β₂} (h : ∀ s t, P s t → Q a b s t) :
    Alike K P (pure a) (pure b) E Q :=
  fun s t hs => .inr (h s t hs)

theorem weaken {g₁ : Grammar Nat β₁} {g₂ : Grammar π β₂} {E' : β₁ → State Nat → Prop}
    {R : β₁ → β₂ → State Nat → State π → Prop} (h : Alike K P g₁ g₂ E' R)
    (hE : ∀ a s, E' a s → E a s) (hRQ : ∀ a b s t, R a b s t → Q a b s t) :
    Alike K P g₁ g₂ E Q := by
  intro s t hs
  rcases h s t hs with (hvoid | ⟨htail, hE'⟩) | hR
  · exact .inl (.inl hvoid)
  · exact .inl (.inr ⟨htail, hE _ _ hE'⟩)
  · exact .inr (hRQ _ _ _ _ hR)

/-- How the first run may go astray does not matter where nothing comes behind the common text. -/
theorem of_tail {g₁ : Grammar Nat β₁} {g₂ : Grammar π β₂} {E' : β₁ → State Nat → Prop}
    (htail : K.tail = []) (h : Alike K P g₁ g₂ E' Q) : Alike K P g₁ g₂ E Q := by
  intro s t hs
  rcases h s t hs with (hvoid | ⟨hne, -⟩) | hQ
  · exact .inl (.inl hvoid)
  · exact absurd htail hne
  · exact .inr hQ

theorem bind {g₁ : Grammar Nat α₁} {g₂ : Grammar π α₂} {f₁ : α₁ → Grammar Nat β₁}
    {f₂ : α₂ → Grammar π β₂} {E' : α₁ → State Nat → Prop}
    {R : α₁ → α₂ → State Nat → State π → Prop} (hg : Alike K P g₁ g₂ E' R)
    (hstray : K.tail ≠ [] → ∀ a, Ensures (E' a) (f₁ a) (K.Astray E))
    (hf : ∀ a b, Alike K (R a b) (f₁ a) (f₂ b) E Q) : Alike K P (g₁ >>= f₁) (g₂ >>= f₂) E Q := by
  intro s t hs
  rcases hg s t hs with (hvoid | ⟨htail, hE⟩) | hR
  · exact .inl (stays_astray _ _ hvoid)
  · exact .inl (hstray htail _ _ hE)
  · exact hf _ _ _ _ hR

theorem ite {c₁ c₂ : Prop} [Decidable c₁] [Decidable c₂] {g₁ h₁ : Grammar Nat β₁}
    {g₂ h₂ : Grammar π β₂} (hc : c₁ ↔ c₂) (h : c₁ → Alike K P g₁ g₂ E Q)
    (h' : ¬c₁ → Alike K P h₁ h₂ E Q) :
    Alike K P (if c₁ then g₁ else h₁) (if c₂ then g₂ else h₂) E Q := by
  by_cases hc₁ : c₁
  · rw [if_pos hc₁, if_pos (hc.mp hc₁)]
    exact h hc₁
  · rw [if_neg hc₁, if_neg (fun hc₂ => hc₁ (hc.mpr hc₂))]
    exact h' hc₁

/-- The runs do not come further than the common text. -/
theorem bounded {g₁ : Grammar Nat β₁} {g₂ : Grammar π β₂}
    (h : p.length + l.length ≤ K.first.text.length → Alike K (Twin K p l) g₁ g₂ E Q) :
    Alike K (Twin K p l) g₁ g₂ E Q :=
  fun s t hs => h hs.length_le s t hs

/-- A part of the grammar in which the second run may notice problems of its own; `hstray` tells
what the first run does behind it where it has gone astray at the end of its text. -/
theorem callNotesStray {g₁ : Grammar Nat α₁} {g₂ : Grammar π α₂} {f₁ : α₁ → Grammar Nat β₁}
    {f₂ : α₂ → Grammar π β₂} {E' : α₁ → State Nat → Prop} {f : α₁ → α₂} {N : α₁ → List (Problem π)}
    (hg : Alike K P g₁ g₂ E' (Notes K f N))
    (hstray : K.tail ≠ [] → ∀ a, Ensures (E' a) (f₁ a) (K.Astray E))
    (hf : ∀ a q, Alike (K.noting (N a)) (Twin (K.noting (N a)) q []) (f₁ a) (f₂ (f a)) E Q) :
    Alike K P (g₁ >>= f₁) (g₂ >>= f₂) E Q := by
  refine .bind hg hstray fun a b s t h => ?_
  obtain ⟨rfl, q, htwin⟩ := h
  exact hf a q s t htwin

theorem callNotes {g₁ : Grammar Nat α₁} {g₂ : Grammar π α₂} {f₁ : α₁ → Grammar Nat β₁}
    {f₂ : α₂ → Grammar π β₂} {f : α₁ → α₂} {N : α₁ → List (Problem π)}
    (hg : Alike K P g₁ g₂ Never (Notes K f N))
    (hf : ∀ a q, Alike (K.noting (N a)) (Twin (K.noting (N a)) q []) (f₁ a) (f₂ (f a)) E Q) :
    Alike K P (g₁ >>= f₁) (g₂ >>= f₂) E Q :=
  .callNotesStray hg (fun _ _ _ h => h.elim) hf

/-- A part of the grammar that something follows; `hstray` tells what the first run does behind it
where it has gone astray at the end of its text. -/
theorem callStray {g₁ : Grammar Nat α₁} {g₂ : Grammar π α₂} {f₁ : α₁ → Grammar Nat β₁}
    {f₂ : α₂ → Grammar π β₂} {E' : α₁ → State Nat → Prop} {f : α₁ → α₂}
    (hg : Alike K P g₁ g₂ E' (Meets K f))
    (hstray : K.tail ≠ [] → ∀ a, Ensures (E' a) (f₁ a) (K.Astray E))
    (hf : ∀ a q, Alike K (Twin K q []) (f₁ a) (f₂ (f a)) E Q) :
    Alike K P (g₁ >>= f₁) (g₂ >>= f₂) E Q :=
  .callNotesStray (N := fun _ => []) hg hstray hf

/-- A part of the grammar that something follows. -/
theorem call {g₁ : Grammar Nat α₁} {g₂ : Grammar π α₂} {f₁ : α₁ → Grammar Nat β₁}
    {f₂ : α₂ → Grammar π β₂} {f : α₁ → α₂} (hg : Alike K P g₁ g₂ Never (Meets K f))
    (hf : ∀ a q, Alike K (Twin K q []) (f₁ a) (f₂ (f a)) E Q) :
    Alike K P (g₁ >>= f₁) (g₂ >>= f₂) E Q :=
  .callStray hg (fun _ _ _ h => h.elim) hf

/-- A step that comes last, taken as one that something follows. -/
theorem last {g₁ : Grammar Nat β₁} {g₂ : Grammar π β₂}
    (h : Alike K P (g₁ >>= Pure.pure) (g₂ >>= Pure.pure) E Q) : Alike K P g₁ g₂ E Q := h

/-- A part of the grammar that comes last and never goes another way. -/
theorem tail {g₁ : Grammar Nat β₁} {g₂ : Grammar π β₂} (h : Alike K P g₁ g₂ Never Q) :
    Alike K P g₁ g₂ E Q :=
  h.weaken (fun _ _ h => h.elim) fun _ _ _ _ h => h

/-- A result where nothing is looked at. -/
theorem done {a : β₁} {b : β₂} {f : β₁ → β₂} (hb : b = f a) :
    Alike K (Twin K p []) (Pure.pure a) (Pure.pure b) E (Meets K f) :=
  .pure fun _ _ h => ⟨hb, p, h⟩

/-- A result with which the second run has noticed what it tells. -/
theorem doneNotes {a : β₁} {b : β₂} {f : β₁ → β₂} {N : β₁ → List (Problem π)}
    {problems : List (Problem π)} (hb : b = f a) (hproblems : problems = N a) :
    Alike (K.noting problems) (Twin (K.noting problems) p []) (Pure.pure a) (Pure.pure b) E
      (Notes K f N) := by
  subst hproblems
  exact .done hb

/-- A part of the grammar whose result in the first run is known to satisfy `R`. -/
theorem callKnown {g₁ : Grammar Nat α₁} {g₂ : Grammar π α₂} {f₁ : α₁ → Grammar Nat β₁}
    {f₂ : α₂ → Grammar π β₂} {E' : α₁ → State Nat → Prop} {f : α₁ → α₂} {R : α₁ → Prop}
    (hg : Alike K P g₁ g₂ E' (Meets K f)) (hR : ∀ s, R (g₁ s).1)
    (hstray : K.tail ≠ [] → ∀ a, Ensures (E' a) (f₁ a) (K.Astray E))
    (hf : ∀ a q, R a → Alike K (Twin K q []) (f₁ a) (f₂ (f a)) E Q) :
    Alike K P (g₁ >>= f₁) (g₂ >>= f₂) E Q := by
  intro s t hs
  rcases hg s t hs with (hvoid | ⟨htail, hE⟩) | ⟨hb, q, htwin⟩
  · exact .inl (stays_astray _ _ hvoid)
  · exact .inl (hstray htail _ _ hE)
  · have h := hf _ q (hR s) _ _ htwin
    rw [← hb] at h
    exact h

/-- A result with which the second run has noticed nothing more. -/
theorem doneBare {a : β₁} {b : β₂} {f : β₁ → β₂} {N : β₁ → List (Problem π)} (hb : b = f a)
    (hbare : N a = []) :
    Alike K (Twin K p []) (Pure.pure a) (Pure.pure b) E (Notes K f N) := by
  refine .pure fun s t h => ?_
  rw [Notes, hbare]
  exact ⟨hb, p, h⟩

/-- A part of the grammar in which the second run notices no problem of its own. -/
theorem bare {g₁ : Grammar Nat β₁} {g₂ : Grammar π β₂} {f : β₁ → β₂} {N : β₁ → List (Problem π)}
    (h : Alike K P g₁ g₂ E (Notes K f N)) (hbare : ∀ a, N a = []) :
    Alike K P g₁ g₂ E (Meets K f) := by
  refine h.weaken (fun _ _ h => h) fun a b s t hnotes => ?_
  rw [Notes, hbare] at hnotes
  exact hnotes

/-- A part of the grammar of which the logic for one run says how the first run goes on, and in
which the second may notice problems of its own. -/
theorem callNotesReads {g₁ : Grammar Nat α₁} {g₂ : Grammar π α₂} {f₁ : α₁ → Grammar Nat β₁}
    {f₂ : α₂ → Grammar π β₂} {E' : α₁ → State Nat → Prop} {f : α₁ → α₂} {N : α₁ → List (Problem π)}
    {n : Nat} {R : α₁ → Nat → Prop} (hg : Alike K (Twin K p l) g₁ g₂ E' (Notes K f N))
    (hreads : Ensures (State.At K.first p l) g₁ (Onward K.first n R))
    (hstray : K.tail ≠ [] → ∀ a, Ensures (E' a) (f₁ a) (K.Astray E))
    (hf : ∀ a q, n ≤ q.length → R a q.length →
      Alike (K.noting (N a)) (Twin (K.noting (N a)) q []) (f₁ a) (f₂ (f a)) E Q) :
    Alike K (Twin K p l) (g₁ >>= f₁) (g₂ >>= f₂) E Q := by
  intro s t hs
  rcases hg s t hs with (hvoid | ⟨htail, hE⟩) | ⟨hb, q, htwin⟩
  · exact .inl (stays_astray _ _ hvoid)
  · exact .inl (hstray htail _ _ hE)
  · obtain ⟨q', hq', hat, hR⟩ := hreads s hs.first
    obtain rfl : q' = q := hat.reader.past.symm.trans htwin.first.reader.past
    have h := hf _ q' hq' hR _ _ htwin
    rw [← hb] at h
    exact h

/-- A part of the grammar of which the logic for one run says how the first run goes on. -/
theorem callReads {g₁ : Grammar Nat α₁} {g₂ : Grammar π α₂} {f₁ : α₁ → Grammar Nat β₁}
    {f₂ : α₂ → Grammar π β₂} {E' : α₁ → State Nat → Prop} {f : α₁ → α₂} {n : Nat}
    {R : α₁ → Nat → Prop} (hg : Alike K (Twin K p l) g₁ g₂ E' (Meets K f))
    (hreads : Ensures (State.At K.first p l) g₁ (Onward K.first n R))
    (hstray : K.tail ≠ [] → ∀ a, Ensures (E' a) (f₁ a) (K.Astray E))
    (hf : ∀ a q, n ≤ q.length → R a q.length →
      Alike K (Twin K q []) (f₁ a) (f₂ (f a)) E Q) :
    Alike K (Twin K p l) (g₁ >>= f₁) (g₂ >>= f₂) E Q :=
  .callNotesReads (N := fun _ => []) hg hreads hstray hf

end Alike

end Grammar

end Diagram
