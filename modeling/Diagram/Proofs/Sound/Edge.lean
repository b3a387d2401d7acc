import Diagram.Grammar.Edge
import Diagram.Proofs.Sound.Text

/-!
Edges and edge indexes keep the rules of the reader, and their nodes lie where they were read: an
edge reaches from the path it leaves from to the path it leads to.
-/
namespace Diagram.Grammar

variable {π : Type} {F : Frame π} {n : Nat}

/-! ## Connections -/

theorem edgeEscape_reads (start : π) (p : List Char) :
    Ensures (State.At F p []) (edgeEscape start) (Onward F p.length fun _ _ => True) := by
  refine .peekVisible (.done (Nat.le_refl _) trivial) fun b c hc =>
    .ite (fun _ => ?_) fun _ => .ite (fun _ => ?_) fun _ => ?_
  · exact .retreat (.reportToReach (.done (Nat.le_refl _) trivial))
  · exact .accept (.putBack (ne_newline_of_visible hc) (.done (by simp) trivial))
  · exact .retreat (.done (Nat.le_refl _) trivial)

theorem edgeCharacter_reads (start : π) (head : Option Arrowhead) (p : List Char) :
    Ensures (State.At F p []) (edgeCharacter start head)
      (Steps F p.length (fun _ _ => True) fun _ _ => True) := by
  refine .peek (.reportToReach (Steps.stop (Nat.le_refl _) trivial)) fun c =>
    .ite (fun _ => ?_) fun _ => .ite (fun _ => ?_) fun _ => .ite (fun _ => ?_) fun _ =>
    .ite (fun _ => ?_) fun _ => ?_
  · exact .accept (Steps.stop (by simp) trivial)
  · exact .accept (Steps.stop (by simp) trivial)
  · refine .accept (.call (edgeEscape_reads start _) fun goesOn q hq _ => ?_)
    simp at hq
    cases goesOn with
    | true => exact Steps.again (by omega) trivial
    | false => exact Steps.stop (by omega) trivial
  · exact .accept (Steps.again (by simp) trivial)
  · exact .retreat (Steps.stop (Nat.le_refl _) trivial)

theorem edgeLine_reads (start : π) (p : List Char) :
    Ensures (State.At F p []) (edgeLine start) (Onward F p.length fun _ _ => True) :=
  repeating_ensures (fun head p _ => edgeCharacter_reads start head p) trivial

/-- The edges gathered and the path that the next one leaves from lie between `n` and `i`. -/
def Chain.Within (F : Frame π) (n : Nat) (chain : Chain π) (i : Nat) : Prop :=
  n ≤ i ∧ (∀ e ∈ chain.edges, e.Within F.cover n i) ∧
    ∀ path ∈ chain.source, path.Within F.cover n i

theorem Chain.Within.mono {chain : Chain π} {i j : Nat} (h : chain.Within F n i) (hij : i ≤ j) :
    chain.Within F n j := by
  obtain ⟨hn, hedges, hsource⟩ := h
  exact ⟨by omega, fun e he => (hedges e he).mono (Nat.le_refl n) hij,
    fun path hpath => (hsource path hpath).mono (Nat.le_refl n) hij⟩

/-- An edge starts in front of its first character, where its source starts if there is one. -/
theorem edgeStart_reads {source : Option (KeyPath (Span π))} {p b : List Char} {c : Char}
    (hc : c ≠ '\n') (hn : n ≤ p.length)
    (hsource : ∀ path ∈ source, path.Within F.cover n p.length) :
    Ensures (State.At F p (c :: b)) (edgeStart source c) fun start s =>
      ∃ i, (start = F.mark i ∧ n ≤ i ∧ i ≤ (b ++ p).length ∧
        ∀ path ∈ source, path.Within F.cover i p.length) ∧ s.At F p (c :: b) := by
  cases source with
  | some path =>
    obtain ⟨i, j, hi, hij, hj, hrange, hin⟩ := hsource path rfl
    refine .pure fun s hs => ⟨i, ⟨by simp [hrange, Frame.cover], hi, by simp; omega, ?_⟩, hs⟩
    intro x hx
    obtain rfl := Option.some.inj hx
    exact ⟨i, j, Nat.le_refl _, hij, hj, hrange, hin⟩
  | none =>
    refine .lookedPlace (.before hc (.report (.pure fun s hs => ?_)))
    refine ⟨(b ++ p).length, ⟨?_, by simp; omega, Nat.le_refl _, by simp⟩, hs⟩
    have hknown := Reader.At.known (b := []) (p := b ++ p) hs.reader.accept
    rw [← Tape.mark_before hknown hc]
    congr 2
    simp
    omega

theorem edgeTarget_reads {chain : Chain π} {head targetHead : Arrowhead} {m i : Nat}
    {p : List Char} (hm : m < p.length) (hn : n ≤ i) (hi : i ≤ p.length)
    (hedges : ∀ e ∈ chain.edges, e.Within F.cover n p.length)
    (hsource : ∀ path ∈ chain.source, path.Within F.cover i p.length) :
    Ensures (State.At F p []) (edgeTarget chain head (F.mark i) targetHead)
      (Steps F m (Chain.Within F n) (Chain.Within F n)) := by
  refine .here (.call (path_reads p) fun target q hq htarget => ?_)
  have hold : ∀ e ∈ chain.edges, e.Within F.cover n q.length :=
    fun e he => (hedges e he).mono (Nat.le_refl n) hq
  cases target with
  | none =>
    refine .reportToHere (Steps.again (by omega) ⟨by omega, ?_, by simp⟩)
    refine List.forall_mem_cons.mpr ⟨?_, hold⟩
    exact ⟨i, p.length, hn, hi, hq, rfl, hsource, by simp⟩
  | some target =>
    obtain ⟨k, j, hk, hkj, hj, hrange, hin⟩ := htarget target rfl
    have htarget' : target.Within F.cover i j := ⟨k, j, by omega, hkj, Nat.le_refl _, hrange, hin⟩
    refine Steps.again (by omega) ⟨by omega, ?_, ?_⟩
    · refine List.forall_mem_cons.mpr ⟨?_, hold⟩
      refine ⟨i, j, hn, by omega, hj, by simp [hrange, Frame.cover], ?_, ?_⟩
      · exact fun path hpath => (hsource path hpath).mono (Nat.le_refl i) (by omega)
      · intro x hx
        exact Option.some.inj hx ▸ htarget'
    · intro x hx
      exact Option.some.inj hx ▸ htarget'.mono hn hj

theorem nextEdge_reads {chain : Chain π} {p : List Char} (hchain : chain.Within F n p.length) :
    Ensures (State.At F p []) (nextEdge chain)
      (Steps F p.length (Chain.Within F n) (Chain.Within F n)) := by
  refine .peekOnLine (Steps.stop (Nat.le_refl _) hchain) fun b c hc => ?_
  dsimp only
  rw [List.append_nil]
  cases sourceHead? c with
  | none => exact .retreat (Steps.stop (Nat.le_refl _) hchain)
  | some head =>
    obtain ⟨hn, hedges, hsource⟩ := hchain
    refine .bind (edgeStart_reads (ne_newline_of_visible hc) hn hsource) fun start => ?_
    refine .of_exists fun i => .of_and fun ⟨hstart, hni, hi, hsource'⟩ => .accept ?_
    refine .call (edgeLine_reads start _) fun targetHead q hq _ => ?_
    simp at hi hq
    have hpq : p.length ≤ q.length := by omega
    cases targetHead with
    | none => exact Steps.stop hpq (Chain.Within.mono ⟨hn, hedges, hsource⟩ hpq)
    | some targetHead =>
      rw [hstart]
      refine edgeTarget_reads (by omega) hni (by omega) ?_ ?_
      · exact fun e he => (hedges e he).mono (Nat.le_refl n) hpq
      · exact fun path hpath => (hsource' path hpath).mono (Nat.le_refl i) hpq

theorem edges_reads {source : Option (KeyPath (Span π))} {p : List Char} (hn : n ≤ p.length)
    (hsource : ∀ path ∈ source, path.Within F.cover n p.length) :
    Ensures (State.At F p []) (edges source)
      (Onward F p.length fun r j => ∀ e ∈ r, e.Within F.cover n j) := by
  refine .mapped (repeating_ensures (I := Chain.Within F n) (fun _ _ h => nextEdge_reads h)
    ⟨hn, by simp, hsource⟩) fun chain j h e he => ?_
  exact h.2.1 e (List.mem_reverse.mp he)

/-! ## Edge indexes -/

theorem indexDigit_reads (start : π) (digits : Option (List Char)) (p : List Char) :
    Ensures (State.At F p []) (indexDigit start digits)
      (Steps F p.length (fun _ _ => True) fun _ _ => True) := by
  refine .peekOnLine (.reportToHere (Steps.stop (Nat.le_refl _) trivial)) fun b c hc =>
    .ite (fun _ => ?_) fun _ => .accept (.ite (fun _ => ?_) fun _ => ?_)
  · exact .retreat (Steps.stop (Nat.le_refl _) trivial)
  · exact Steps.again (by simp only [List.length_cons, List.length_append]; omega) trivial
  · refine .placeOf (ne_newline_of_visible hc) (.reportToHere (Steps.again ?_ trivial))
    simp only [List.append_eq, List.append_nil, List.length_cons, List.length_append]
    omega

theorem edgeChoice_reads (start : π) (p : List Char) :
    Ensures (State.At F p []) (edgeChoice start) (Onward F p.length fun _ _ => True) := by
  refine .peekOnLine (.reportToHere (.done (Nat.le_refl _) trivial)) fun b c hc =>
    .ite (fun _ => .accept ?_) fun _ => .ite (fun _ => ?_) fun _ => ?_
  · refine .mapped (?_ : Ensures _ _ (Onward F p.length fun _ _ => True)) fun _ _ _ => trivial
    refine .tail (repeating_ensures (fun digits p _ => indexDigit_reads start digits p) trivial)
      (by simp; omega) fun _ _ _ _ => trivial
  · exact .accept (.done (by simp; omega) trivial)
  · refine .lookedPlace (.retreat (.before (ne_newline_of_visible hc) ?_))
    exact .report (.reportToHere (.done (Nat.le_refl _) trivial))

theorem indexEnd_reads (start : π) (p : List Char) :
    Ensures (State.At F p []) (indexEnd start) (Onward F p.length fun _ _ => True) := by
  refine .peekOnLine ?_ fun b c _ => .ite (fun _ => ?_) fun _ => .retreat ?_
  · exact .ending .reportToHere_stays (Nat.le_refl _) trivial
  · exact .ending .accept_moves (by simp; omega) trivial
  · exact .ending .reportToHere_stays (Nat.le_refl _) trivial

/-- An edge index lies from its bracket to where reading has come. -/
theorem edgeIndex_reads (p : List Char) :
    Ensures (State.At F ('[' :: p) []) edgeIndex
      (Onward F (p.length + 1) fun r j => ∀ x ∈ r, x.Within F.cover p.length j) := by
  refine .placeOf (by decide) (.call (edgeChoice_reads _ _) fun choice q hq _ => ?_)
  rw [List.length_cons] at hq
  cases choice with
  | none => exact .done (by omega) (by simp)
  | some choice =>
    refine .call (indexEnd_reads _ q) fun _ q' hq' _ => .here (.done (by omega) fun x hx => ?_)
    obtain rfl := Option.some.inj hx
    exact ⟨p.length, q'.length, Nat.le_refl _, by omega, Nat.le_refl _, rfl, trivial⟩

end Diagram.Grammar
