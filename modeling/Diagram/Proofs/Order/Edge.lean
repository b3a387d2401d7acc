import Diagram.Proofs.Order.Text

/-!
The problems of edges and edge indexes are listed in order. What is wrong with a connection is
noticed behind the place where the edge starts, and closes over what has been noticed of its paths.
-/
namespace Diagram.Grammar

variable {F : Frame Nat} {m n : Nat} {p : List Char}

/-! ## Connections -/

theorem edgeEscape_listing (hF : F.meter = .index) (hn : n < p.length) (hm : m ≤ p.length) :
    Listing (Listed m p.length) (State.At F p []) (edgeEscape n) fun _ => Listed m := by
  refine .peekVisible (.done (Nat.le_refl _)) fun b c hc => .ite (fun _ => .retreat ?_) fun _ =>
    .ite (fun _ => .accept (.putBack (ne_newline_of_visible hc) (.done ?_))) fun _ =>
    .retreat (.done (Nat.le_refl _))
  · exact .closeToReach hF (fun _ => rfl) hm (Nat.le_succ _) (.inr hn) (.done (Nat.le_refl _))
  · simp

theorem edgeCharacter_listing (hF : F.meter = .index) (head : Option Arrowhead) (hn : n < p.length)
    (hm : m ≤ p.length) :
    Listing (Listed m p.length) (State.At F p []) (edgeCharacter n head) fun _ => Listed m := by
  refine .peek ?_ fun c => .ite (fun _ => .accept (.done (Nat.le_succ _))) fun _ =>
    .ite (fun _ => .accept (.done (Nat.le_succ _))) fun _ => .ite (fun _ => .accept ?_) fun _ =>
    .ite (fun _ => .accept (.done (Nat.le_succ _))) fun _ => .retreat (.done (Nat.le_refl _))
  · exact .closeToReach hF (fun _ => rfl) hm (Nat.le_succ _) (.inr hn) (.done (Nat.le_refl _))
  · refine .mapped ((edgeEscape_listing hF (Nat.lt_succ_of_lt hn) (Nat.le_succ_of_le hm)).given
      fun _ h => h.mono (Nat.le_refl m) (Nat.le_succ _))

theorem edgeLine_listing (hF : F.meter = .index) (hn : n < p.length) (hm : m ≤ p.length) :
    Listing (Listed m p.length) (State.At F p []) (edgeLine n) fun _ => Listed m :=
  .looping (fun head q _ => edgeCharacter_reads n head q)
    (fun head _ hq _ => edgeCharacter_listing hF head (Nat.lt_of_lt_of_le hn hq)
      (Nat.le_trans hm hq))
    trivial fun _ h => h

/-- An edge starts no later than its first character. -/
theorem Listing.edgeStart {β : Type} {source : Option (KeyPath (Span Nat))}
    {b : List Char} {c : Char}
    {f : Nat → Grammar Nat β} {K : β → Nat → List (Problem Nat) → Prop} (hF : F.meter = .index)
    (hc : c ≠ '\n') (hm : m ≤ p.length)
    (hsource : ∀ path ∈ source, path.Within F.cover n p.length)
    (hf : ∀ i, i ≤ p.length + b.length →
      Listing (Listed m (p.length + b.length + 1)) (State.At F p (c :: b)) (f i) K) :
    Listing (Listed m p.length) (State.At F p (c :: b)) (edgeStart source c >>= f) K := by
  cases source with
  | some path =>
    -- the source has been read, so that it starts in front of the edge
    obtain ⟨i, j, -, hij, hj, hrange, -⟩ := hsource path rfl
    refine .within fun hlength => ?_
    have hstart : path.range.start = i := by
      rw [hrange]
      exact mark_index hF (by omega)
    have hfront := hf i (by omega)
    rw [← hstart] at hfront
    exact hfront.given fun _ h => h.mono (Nat.le_refl m) (by omega)
  | none =>
    show Listing _ _ (lookedPlace >>= fun stop => Grammar.before stop c >>= fun start =>
      Grammar.report .missingSource start stop >>= fun _ => f start) _
    refine .lookedBehind hF (.before hF hc (.report (fun _ h => ?_) (hf _ (Nat.le_refl _))))
    exact h.notice (by omega) (by omega) (.inr (Nat.lt_succ_self _))

theorem edgeTarget_listing (hF : F.meter = .index) (chain : Chain Nat) (head targetHead : Arrowhead)
    (hn : n < p.length) (hm : m ≤ p.length) :
    Listing (Listed m p.length) (State.At F p []) (edgeTarget chain head n targetHead)
      fun _ => Listed m := by
  refine .here hF (.call (path_listing hF hm) (path_reads p) fun target q hq _ => ?_)
  cases target with
  | some target => exact .done (Nat.le_refl _)
  | none =>
    exact .closeToHere hF (fun _ => rfl) (Nat.le_trans hm hq) (Nat.le_succ _)
      (.inr (Nat.lt_of_lt_of_le hn hq)) (.done (Nat.le_refl _))

theorem nextEdge_listing (hF : F.meter = .index) {chain : Chain Nat} (hm : m ≤ p.length)
    (hchain : chain.Within F n p.length) :
    Listing (Listed m p.length) (State.At F p []) (nextEdge chain) fun _ => Listed m := by
  refine .peekOnLine (.done (Nat.le_refl _)) fun b c hc => ?_
  dsimp only
  rw [List.append_nil]
  cases sourceHead? c with
  | none => exact .retreat (.done (Nat.le_refl _))
  | some head =>
    obtain ⟨-, -, hsource⟩ := hchain
    refine .edgeStart hF (ne_newline_of_visible hc) hm hsource fun i hi => .accept ?_
    have hbehind : (c :: b ++ p).length = p.length + b.length + 1 := by
      simp only [List.length_append, List.length_cons]
      omega
    rw [← hbehind]
    refine .call (edgeLine_listing hF (by omega) (by omega)) (edgeLine_reads i _)
      fun targetHead q hq _ => ?_
    cases targetHead with
    | none => exact .done (Nat.le_refl _)
    | some targetHead => exact edgeTarget_listing hF chain head targetHead (by omega) (by omega)

theorem edges_listing (hF : F.meter = .index) {source : Option (KeyPath (Span Nat))}
    (hm : m ≤ p.length) (hn : n ≤ p.length)
    (hsource : ∀ path ∈ source, path.Within F.cover n p.length) :
    Listing (Listed m p.length) (State.At F p []) (edges source) fun _ => Listed m :=
  .mapped (.looping (I := Chain.Within F n) (fun _ _ h => nextEdge_reads h)
    (fun _ _ hq h => nextEdge_listing hF (Nat.le_trans hm hq) h) ⟨hn, by simp, hsource⟩
    fun _ h => h)

/-! ## Edge indexes -/

section

variable {i : Nat}

/-- An edge index that is given up closes over what is unexpected in it. -/
theorem Listing.openIndex {β : Type} {b : β} (hF : F.meter = .index) (hn : n ≤ p.length) :
    Listing (Foreseen F.text i n) (State.At F p [])
      (Grammar.reportToHere .unterminatedEdgeIndex i >>= fun _ => Pure.pure b)
      fun _ => Foreseen F.text i := by
  refine .reportToHere hF (fun _ h => ?_) (.pure fun _ h => h)
  exact (h.close rfl (.inl rfl)).mono (Nat.le_refl i) hn

/-- A result that is given where what has been noticed ahead is ahead still, or is passed. -/
theorem Listing.kept {β : Type} {b : β} {l : List Char} (hn : n ≤ p.length) :
    Listing (Foreseen F.text i n) (State.At F p l) (Pure.pure b) fun _ => Foreseen F.text i :=
  .pure fun _ h => h.mono (Nat.le_refl i) hn

theorem indexDigit_listing (hF : F.meter = .index) (digits : Option (List Char))
    (hi : i ≤ p.length) :
    Listing (Foreseen F.text i p.length) (State.At F p []) (indexDigit i digits)
      fun _ => Foreseen F.text i := by
  refine .peekOnLine (.openIndex hF (Nat.le_refl _)) fun b c hc => .ite (fun _ =>
    .retreat (.kept (Nat.le_refl _))) fun _ => .accept (.ite (fun _ => .kept ?_) fun _ => ?_)
  · simp
    omega
  · refine .placeOf hF (ne_newline_of_visible hc) (.consumed fun hknown => ?_)
    refine .reportToHere hF (fun _ h => ?_) (.pure fun _ h => h)
    have hpb : p.length ≤ (b ++ [] ++ p).length := by simp
    exact h.notice (h.visible (Nat.le_trans hi hpb) hpb hknown hc) rfl (Nat.le_succ_of_le hpb)
      (.inl (Nat.lt_succ_self _))

/-- What no edge index starts with is noticed ahead. -/
theorem edgeChoice_listing (hF : F.meter = .index) (hi : i < p.length) :
    Listing (Listed i i) (State.At F p []) (edgeChoice i) fun _ => Foreseen F.text i := by
  have hforeseen : ∀ k problems, Listed i i problems → Foreseen F.text i k problems :=
    fun _ _ h => h.foreseen (Nat.le_refl i) (Nat.le_succ i)
  have hopen : Listing (Foreseen F.text i p.length) (State.At F p []) _ _ :=
    Listing.openIndex (b := (none : Option EdgeChoice)) hF (Nat.le_refl _)
  refine .peekLine (hopen.given (hforeseen _)) fun b c hb hline => .ite (fun _ => ?_)
    fun _ => .ite (fun _ => ?_) fun _ => ?_
  · refine .accept (.mapped (.looping (fun digits q _ => indexDigit_reads i digits q)
      (fun digits q hq _ => indexDigit_listing hF digits ?_) trivial (hforeseen _)))
    simp only [List.length_append, List.length_cons] at hq
    omega
  · exact .accept (.pure (hforeseen _))
  · -- the character is left unread, so that what is noticed there is ahead of the reading
    obtain ⟨_, _, _, _, _, hvisible⟩ := hline
    refine .sighted hb hvisible fun hnext => .lookedBehind hF (.retreat (.before hF
      (ne_newline_of_visible hvisible) (.report (fun problems h => ?_) hopen)))
    exact (hforeseen _ problems h).notice (h.mono (by omega) (by omega)) rfl (Nat.le_refl _)
      (.inr hnext)

theorem indexEnd_listing (hF : F.meter = .index) :
    Listing (Foreseen F.text i p.length) (State.At F p []) (indexEnd i)
      fun _ => Foreseen F.text i := by
  refine .peekOnLine (.last (.openIndex hF (Nat.le_refl _))) fun b c _ => .ite (fun _ =>
    .last (.accept (.kept ?_))) fun _ => .retreat (.last (.openIndex hF (Nat.le_refl _)))
  simp
  omega

theorem edgeIndex_listing (hF : F.meter = .index) (hm : m ≤ p.length) :
    Listing (Listed m p.length) (State.At F ('[' :: p) []) edgeIndex
      fun _ => Foreseen F.text p.length := by
  refine .placeOf hF (by decide) (.call ((edgeChoice_listing hF (Nat.lt_succ_self _)).given
    fun _ h => h.upto hm) (edgeChoice_reads _ _) fun choice q _ _ => ?_)
  cases choice with
  | none => exact .kept (Nat.le_refl _)
  | some choice =>
    exact .call (indexEnd_listing hF) (indexEnd_reads _ q) fun _ _ _ _ =>
      .here hF (.kept (Nat.le_refl _))

end

end Diagram.Grammar
