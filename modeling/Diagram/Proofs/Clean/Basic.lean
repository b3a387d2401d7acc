import Diagram.Proofs.Logic

/-!
What is consumed where nothing is wrong. `Consumes F p R` says of a result that, unless a problem
has been noticed, reading has gone on from `p` over characters that fit the result as `R` tells.
Where a problem is reported, there is nothing to say.
-/
namespace Diagram.Grammar

variable {π α β σ : Type} {F : Frame π} {p : List Char}

/-- Unless a problem has been noticed. -/
def IfClean (Q : α → State π → Prop) (a : α) (s : State π) : Prop :=
  s.problems = [] → Q a s

/-- Unless a problem has been noticed, characters with `R`, latest first, have been consumed behind
`p`, and nothing is looked at. -/
def Consumes (F : Frame π) (p : List Char) (R : α → List Char → Prop) : α → State π → Prop :=
  IfClean fun a s => ∃ u, s.At F (u ++ p) [] ∧ R a u

/-- Nothing is wrong yet where nothing is wrong in the end. -/
theorem problems_nil (g : Grammar π α) {s : State π} (h : (g s).2.problems = []) :
    s.problems = [] :=
  List.suffix_nil.mp (h ▸ g.grows s)

/-- What has been consumed somewhere starts with what has been consumed before. -/
theorem consumed_append {v l q : List Char} {s s' : State π} (hs : s.At F (v ++ p) l)
    (hs' : s'.At F q []) (hle : p.length ≤ q.length) : ∃ u, q = u ++ p := by
  have hp : p.reverse <+: F.text :=
    ⟨v.reverse ++ l.reverse ++ s.reader.unread, by simpa using hs.reader.text⟩
  have hq : q.reverse <+: F.text := ⟨s'.reader.unread, by simpa using hs'.reader.text⟩
  obtain ⟨u, hu⟩ := List.prefix_of_prefix_length_le hp hq (by simpa using hle)
  exact ⟨u.reverse, by rw [← List.reverse_reverse q, ← hu]; simp⟩

/-- What was unread and is not left any more has been consumed. -/
theorem consumed_unread {w q : List Char} {s s' : State π} (hs : s.At F p []) (hs' : s'.At F q [])
    (hunread : s.reader.unread = w ++ F.text.drop q.length) : q = w.reverse ++ p := by
  have htext : p.reverse ++ (w ++ F.text.drop q.length) = F.text := by
    simpa [hunread] using hs.reader.text
  have htext' : q.reverse ++ F.text.drop q.length = F.text := by
    simpa [unread_of_drop hs' rfl] using hs'.reader.text
  rw [← List.append_assoc] at htext
  have hconsumed := List.append_cancel_right (htext'.trans htext.symm)
  rw [← List.reverse_reverse q, hconsumed]
  simp

/-- The first character consumed was the next one of the text. -/
theorem consumed_head {u : List Char} {s : State π} (hs : s.At F (u ++ p) []) {c : Char}
    (hc : c ∈ u.reverse.head?) : F.text[p.length]? = some c := by
  obtain ⟨w, hw⟩ := List.head?_eq_some_iff.mp hc
  have hsplit : u = w.reverse ++ [c] := by rw [← List.reverse_reverse u, hw, List.reverse_cons]
  rw [hsplit, List.append_assoc] at hs
  exact hs.reader.known

/-- What has been consumed stands in the text behind what was consumed before. -/
theorem consumed_extract {v u l : List Char} {s : State π} (hs : s.At F (v ++ (u ++ p)) l) :
    F.text.extract p.length (u ++ p).length = u.reverse := by
  rw [← hs.reader.text]
  simp [List.extract_eq_take_drop]

namespace Ensures

variable {P : State π → Prop} {Q : β → State π → Prop} {R R' : β → List Char → Prop}

/-! ## Problems -/

theorem unclean {cause : Cause} {start stop : π} {f : Unit → Grammar π β} :
    Ensures P (Grammar.report cause start stop >>= f) (IfClean Q) := by
  intro s _ hclean
  cases problems_nil (f ()) hclean

theorem unclean_toHere {cause : Cause} {start : π} {f : Unit → Grammar π β} :
    Ensures P (Grammar.reportToHere cause start >>= f) (IfClean Q) := by
  intro s _ hclean
  cases problems_nil (f ()) hclean

theorem unclean_toReach {cause : Cause} {start : π} {f : Unit → Grammar π β} :
    Ensures P (Grammar.reportToReach cause start >>= f) (IfClean Q) := by
  intro s _ hclean
  cases problems_nil (f ()) hclean

theorem unclean_atColon {cause : Cause} {stop : π} {f : Unit → Grammar π β} :
    Ensures P (Grammar.reportAtColon cause stop >>= f) (IfClean Q) := by
  intro s _ hclean
  cases problems_nil (f ()) hclean

/-! ## Text -/

/-- What has been consumed stands in the text. -/
theorem knownText {v u l : List Char} {g : Grammar π β} {Q : β → State π → Prop}
    (h : F.text.extract p.length (u ++ p).length = u.reverse →
      Ensures (State.At F (v ++ (u ++ p)) l) g Q) : Ensures (State.At F (v ++ (u ++ p)) l) g Q :=
  fun s hs => h (consumed_extract hs) s hs

/-! ## Sequencing -/

/-- A step that comes last, taken as one that something follows. -/
theorem last {g : Grammar π β} (h : Ensures P (g >>= Pure.pure) Q) : Ensures P g Q := h

/-- A part of the grammar that something follows. -/
theorem bindClean {g : Grammar π α} {f : α → Grammar π β} {S : α → State π → Prop}
    (hg : Ensures P g (IfClean S)) (hf : ∀ a, Ensures (S a) (f a) (IfClean Q)) :
    Ensures P (g >>= f) (IfClean Q) :=
  fun s hs hclean => hf _ _ (hg s hs (problems_nil (f (g s).1) hclean)) hclean

theorem callClean {g : Grammar π α} {f : α → Grammar π β} {S : α → List Char → Prop}
    (hg : Ensures P g (Consumes F p S))
    (hf : ∀ a u, S a u → Ensures (State.At F (u ++ p) []) (f a) (IfClean Q)) :
    Ensures P (g >>= f) (IfClean Q) :=
  .bindClean hg fun a s ⟨u, hat, hS⟩ => hf a u hS s hat

/-- What is read is consumed. -/
theorem consumes {g : Grammar π β} {v : List Char} {n : Nat} {S : β → Nat → Prop}
    (hg : Ensures (State.At F (v ++ p) []) g (Onward F n S)) (hn : p.length ≤ n)
    (hSR : ∀ b u, S b (u ++ p).length → R b u) :
    Ensures (State.At F (v ++ p) []) g (Consumes F p R) := by
  intro s hs _
  obtain ⟨q, hq, hat, hS⟩ := hg s hs
  obtain ⟨u, rfl⟩ := consumed_append hs hat (by omega)
  exact ⟨u, hat, hSR _ u hS⟩

/-- A part of the grammar of which it is known where it lies. -/
theorem callRead {g : Grammar π α} {f : α → Grammar π β} {S : α → Nat → Prop}
    (hg : Ensures (State.At F p []) g (Onward F p.length S))
    (hf : ∀ a u, S a (u ++ p).length → Ensures (State.At F (u ++ p) []) (f a) (IfClean Q)) :
    Ensures (State.At F p []) (g >>= f) (IfClean Q) :=
  .callClean (.consumes (v := []) hg (Nat.le_refl _) fun _ _ h => h) hf

/-- What is consumed fits in two ways. -/
theorem consumes_and {g : Grammar π β} (h : Ensures P g (Consumes F p R))
    (h' : Ensures P g (Consumes F p R')) :
    Ensures P g (Consumes F p fun b u => R b u ∧ R' b u) := by
  intro s hs hclean
  obtain ⟨u, hat, hR⟩ := h s hs hclean
  obtain ⟨u', hat', hR'⟩ := h' s hs hclean
  obtain rfl : u = u' := List.append_cancel_right (hat.reader.past.symm.trans hat'.reader.past)
  exact ⟨u, hat, hR, hR'⟩

/-- A part of the grammar that comes last. -/
theorem tailClean {g : Grammar π β} {q : List Char} (v : List Char)
    (hg : Ensures P g (Consumes F q R)) (hq : q = v ++ p) (hRR : ∀ b u, R b u → R' b (u ++ v)) :
    Ensures P g (Consumes F p R') := by
  intro s hs hclean
  obtain ⟨u, hat, hR⟩ := hg s hs hclean
  rw [hq, ← List.append_assoc] at hat
  exact ⟨u ++ v, hat, hRR _ u hR⟩

/-- A level that is entered is left again. -/
theorem nestedClean {g : Grammar π α} {f : α → Grammar π β} {S : α → List Char → Prop}
    (hg : Ensures (State.At F.deeper p []) g (Consumes F.deeper p S))
    (hf : ∀ a u, S a u → Ensures (State.At F (u ++ p) []) (f a) (IfClean Q)) :
    Ensures (State.At F p []) (Grammar.nested g >>= f) (IfClean Q) := by
  intro s hs hclean
  let inside := g { s with depth := s.depth + 1 }
  have hinside : inside.2.problems = [] := problems_nil (ascend >>= fun _ => f inside.1) hclean
  obtain ⟨u, hat, hS⟩ := hg { s with depth := s.depth + 1 }
    ⟨hs.reader, congrArg (· + 1) hs.depth, hs.limit, hs.inGroup⟩ hinside
  rw [bind_apply, nested_apply hat.depth_ne_zero] at hclean ⊢
  exact hf _ u hS _ ⟨hat.reader, congrArg (· - 1) hat.depth, hat.limit, hat.inGroup⟩ hclean

/-- A result where nothing is looked at. -/
theorem consumed {b : β} {q : List Char} (u : List Char) (hq : q = u ++ p) (hR : R b u) :
    Ensures (State.At F q []) (Pure.pure b) (Consumes F p R) :=
  .pure fun _ hs _ => ⟨u, hq ▸ hs, hR⟩

/-- A condition under which something is wrong. -/
theorem whenever_clean {b : Bool} {g : Grammar π Unit} {f : Unit → Grammar π β}
    (hg : Ensures P (g >>= f) (IfClean Q)) (h : b = false → Ensures P (f ()) (IfClean Q)) :
    Ensures P (Grammar.whenever b g >>= f) (IfClean Q) := by
  cases b with
  | false => exact h rfl
  | true => exact hg

end Ensures

/-! ## Repetition -/

/-- What fits a step that wants to be repeated, and what fits one that stops. -/
def Next.Fits (I R : σ → List Char → Prop) : Next σ → List Char → Prop
  | .again g => I g
  | .stop g => R g

/-- **Repetition**: what fits after every step fits in the end. -/
theorem repeating_consumes {step : σ → Grammar π (Next σ)} {M N : σ → Nat → Prop}
    {I R : σ → List Char → Prop} {g : σ}
    (hreads : ∀ g q, M g q.length → Ensures (State.At F q []) (step g) (Steps F q.length M N))
    (hstep : ∀ g u, I g u → Ensures (State.At F (u ++ p) []) (step g)
      (Consumes F p (Next.Fits I R)))
    (hM : M g p.length) (hg : I g []) :
    Ensures (State.At F p []) (repeating step g) (Consumes F p R) := by
  have hholds : ∀ g q, M g q.length →
      Ensures (fun s => s.At F q [] ∧ Consumes F p I g s) (step g)
        (Next.Holds (Consumes F p I) (Consumes F p R)) := by
    intro g q _ s ⟨hs, hJ⟩
    have hafter : Consumes F p (Next.Fits I R) (step g s).1 (step g s).2 := by
      intro hclean
      obtain ⟨u, hat, hI⟩ := hJ (problems_nil (step g) hclean)
      exact hstep g u hI s hat hclean
    cases hnext : (step g s).1 with
    | again g' | stop g' =>
      rw [hnext] at hafter
      exact hafter
  exact fun s hs => repeating_holds hreads hholds hM s ⟨hs, fun _ => ⟨[], hs, hg⟩⟩

end Diagram.Grammar
