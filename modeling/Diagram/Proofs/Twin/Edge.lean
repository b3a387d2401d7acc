import Diagram.Proofs.Sound.Edge
import Diagram.Proofs.Twin.Text

/-!
Edges and edge indexes in two runs side by side. A connection cannot end at the end of a text or in
front of a new line, so that wherever the first run goes another way it reports the connection.
-/
namespace Diagram.Grammar

variable {π ρ : Type} {K : Pairing π} {p : List Char}

/-! ## Where only blanks are left -/

/-- What the first run does where nothing but blanks is left of its text. -/
theorem Ensures.spent {β : Type} {g : Grammar Nat β} {Q : β → State Nat → Prop}
    (h : ∀ q, (∀ x ∈ K.first.text.drop q.length, isBlank x = true) →
      Ensures (State.At K.first q []) g Q) : Ensures K.Spent g Q :=
  fun s ⟨q, hs, hblank⟩ => h q hblank s hs

/-- There is no path among blanks. -/
theorem path_blank (hblank : ∀ x ∈ K.first.text.drop p.length, isBlank x = true) :
    Ensures (State.At K.first p []) path fun r _ => r = none := by
  refine .here (.bind (R := fun segments _ => segments = []) ?_ fun segments => ?_)
  · exact .repeating_once (.peekOnLineBlank hblank (.pure fun _ _ => ⟨[], rfl, rfl⟩))
  · rintro s rfl
    rfl

/-! ## Connections -/

/-- In a connection, an escape at the end of the text is no escape. -/
theorem edgeEscape_alike (start : Nat) (p : List Char) :
    Alike K (Twin K p []) (edgeEscape start) (edgeEscape (K.place start))
      (fun goesOn s => goesOn = true ∧ K.Spent s) (Meets K id) := by
  refine .peekVisible (.done rfl) (fun htail c n _ _ => ?_) fun b c hc =>
    .ite Iff.rfl (fun _ => ?_) fun _ => .ite Iff.rfl (fun _ => ?_) fun _ => ?_
  · exact .crossedStray fun hblank s hs => .inr ⟨htail, rfl, p, hs, hblank⟩
  · exact .retreat (.reportToReach fun _ => .done rfl)
  · exact .accept (.putBack (ne_newline_of_visible hc) (.done rfl))
  · exact .retreat (.done rfl)

theorem edgeCharacter_alike (start : Nat) (head : Option Arrowhead) (p : List Char) :
    Alike K (Twin K p []) (edgeCharacter start head) (edgeCharacter (K.place start) head)
      (fun next s => next = .again none ∧ K.Spent s) (Meets K (Next.map id)) := by
  refine .peek (fun _ => .reportToReach fun _ => .done rfl) (fun htail _ => ?_) fun c =>
    .ite Iff.rfl (fun _ => ?_) fun _ => .ite Iff.rfl (fun _ => ?_) fun _ =>
    .ite Iff.rfl (fun _ => ?_) fun _ => .ite Iff.rfl (fun _ => ?_) fun _ => ?_
  · exact .astray_reportToReach htail
  · exact .accept (.done rfl)
  · exact .accept (.done rfl)
  · refine .accept (.callStray (edgeEscape_alike start _) (fun htail goesOn => ?_)
      fun goesOn q => ?_)
    · rintro s ⟨rfl, hs⟩
      exact .inr ⟨htail, rfl, hs⟩
    · cases goesOn with
      | true => exact .done rfl
      | false => exact .done rfl
  · exact .accept (.done rfl)
  · exact .retreat (.done rfl)

/-- A connection that is continued where only blanks are left has no target. -/
def Untargeted (K : Pairing π) (head : Option Arrowhead) (s : State Nat) : Prop :=
  head = some .none ∧ K.Spent s

/-- Where only blanks are left, a connection that has been continued ends without a head. -/
theorem edgeCharacter_spent (htail : K.tail ≠ []) (start : Nat) (head : Option Arrowhead) :
    Ensures K.Spent (edgeCharacter start head) (K.Astray (Stops (Untargeted K))) := by
  refine .spent fun q hblank => .peekBlank hblank ?_ fun c hc => ?_
  · exact .astray_reportToReach htail
  · refine .ite ?_ fun _ => .ite ?_ fun _ => .ite ?_ fun _ => .ite ?_ fun _ => ?_
    · rintro rfl
      cases hc
    · rintro rfl
      cases hc
    · rintro rfl
      cases hc
    · rintro rfl
      cases hc
    · exact .retreat (.astray_pure htail fun s hs => ⟨_, rfl, rfl, q, hs, hblank⟩)

theorem edgeLine_alike (start : Nat) (p : List Char) :
    Alike K (Twin K p []) (edgeLine start) (edgeLine (K.place start)) (Untargeted K)
      (Meets K id) := by
  refine repeating_alike (f := id) trivial (fun head p _ => edgeCharacter_reads start head p)
    (fun head p _ => edgeCharacter_alike start head p) ?_ ?_
  · rintro head s ⟨h, -⟩
    cases h
  · rintro htail head s ⟨-, hspent⟩
    exact edgeCharacter_spent htail start head s hspent

/-- The first run reports a connection at the end of its text. -/
theorem edgeLine_astray (htail : K.tail ≠ []) (start : Nat)
    (hend : K.first.text.length ≤ p.length) :
    Ensures (State.At K.first p []) (edgeLine start) (K.Astray Never) :=
  repeating_astray (.peekEnd hend (.astray_reportToReach htail))

/-- The same chain in other places. -/
def Chain.map (f : π → ρ) (chain : Chain π) : Chain ρ :=
  ⟨chain.edges.map (Edge.mapMarks (Span.map f)), chain.source.map (KeyPath.mapMarks (Span.map f))⟩

/-- Both edges start at the same place. -/
theorem Alike.edgeStart {β₁ β₂ : Type} {E : β₁ → State Nat → Prop}
    {Q : β₁ → β₂ → State Nat → State π → Prop} {f₁ : Nat → Grammar Nat β₁} {f₂ : π → Grammar π β₂}
    {source : Option (KeyPath (Span Nat))} {c : Char} {b : List Char} (hc : c ≠ '\n')
    (h : ∀ start, Alike K (Twin K p (c :: b)) (f₁ start) (f₂ (K.place start)) E Q) :
    Alike K (Twin K p (c :: b)) (edgeStart source c >>= f₁)
      (edgeStart (source.map (KeyPath.mapMarks (Span.map K.place))) c >>= f₂) E Q := by
  cases source with
  | some source => exact h source.range.start
  | none =>
    simp only [Grammar.edgeStart, Option.map_none, bind_assoc]
    exact .lookedBehind fun i hi => .before hi hc (.report (fun _ => h i))

/-- In front of a dash or a star at the end of its text, the first run looks for another edge. -/
def ChainStranded (K : Pairing π) (next : Next (Chain Nat)) (s : State Nat) : Prop :=
  (∃ chain, next = .again chain) ∧ Stranded K s

theorem edgeTarget_alike (chain : Chain Nat) (head : Arrowhead) (start : Nat)
    (targetHead : Arrowhead) (p : List Char) :
    Alike K (Twin K p []) (edgeTarget chain head start targetHead)
      (edgeTarget (chain.map K.place) head (K.place start) targetHead) (ChainStranded K)
      (Meets K (Next.map (Chain.map K.place))) := by
  refine .here (.callStray (path_alike p) (fun htail target => ?_) fun target q => ?_)
  · cases target with
    | some target => exact .astray_pure htail fun s hs => ⟨⟨_, rfl⟩, hs⟩
    | none => exact .astray_reportToHere htail
  · cases target with
    | some target => exact .done rfl
    | none => exact .reportToHere fun _ => .done rfl

/-- Where only blanks are left, the first run reports that there is no target. -/
theorem edgeTarget_astray {E : Next (Chain Nat) → State Nat → Prop} (htail : K.tail ≠ [])
    (chain : Chain Nat) (head : Arrowhead) (start : Nat) (targetHead : Arrowhead) :
    Ensures K.Spent (edgeTarget chain head start targetHead) (K.Astray E) := by
  refine .spent fun q hblank => .here (.bind (path_blank hblank) fun target => ?_)
  rintro s rfl
  exact Ensures.astray_reportToHere (P := fun _ => True) htail s trivial

theorem edgeFrom_alike (chain : Chain Nat) {c : Char} (hc : c ≠ '\n') (head : Arrowhead)
    (b p : List Char) :
    Alike K (Twin K p (c :: b)) (edgeFrom chain c head) (edgeFrom (chain.map K.place) c head)
      (ChainStranded K) (Meets K (Next.map (Chain.map K.place))) := by
  refine .edgeStart hc fun start => .accept ?_
  refine .callStray (edgeLine_alike start _) (fun htail targetHead => ?_) fun targetHead q => ?_
  · rintro s ⟨rfl, hspent⟩
    exact edgeTarget_astray htail chain head start .none s hspent
  · cases targetHead with
    | none => exact .done rfl
    | some targetHead => exact edgeTarget_alike chain head start targetHead q

theorem nextEdge_alike (chain : Chain Nat) (p : List Char) :
    Alike K (Twin K p []) (nextEdge chain) (nextEdge (chain.map K.place)) (ChainStranded K)
      (Meets K (Next.map (Chain.map K.place))) := by
  refine .peekOnLine (.done rfl) fun b c hc => ?_
  dsimp only
  cases sourceHead? c with
  | none => exact .retreat (.done rfl)
  | some head => exact edgeFrom_alike chain (ne_newline_of_visible hc) head _ p

/-- The dash or the star that is left of the text starts a connection without an end. -/
theorem nextEdge_astray (htail : K.tail ≠ []) (chain : Chain Nat) :
    Ensures (Stranded K) (nextEdge chain) (K.Astray (Stops Never)) := by
  refine .stranded fun q c hc hvisible hrest hknown => .peekOnLineKnown hknown hvisible ?_
  obtain ⟨head, hhead⟩ : ∃ head, sourceHead? c = some head := by
    rcases hc with rfl | rfl
    · exact ⟨_, rfl⟩
    · exact ⟨_, rfl⟩
  have hend : K.first.text.length ≤ (c :: q).length := by
    have hlength := congrArg List.length hrest
    simp at hlength
    simp
    omega
  -- whatever would come behind the line, since the run goes astray in it
  have hline : ∀ start (next : Option Arrowhead → Grammar Nat (Next (Chain Nat))),
      Ensures (State.At K.first q [c]) (accept >>= fun _ => edgeLine start >>= next)
        (K.Astray (Stops Never)) := by
    intro start next
    exact .accept (.astray (edgeLine_astray htail start hend) fun _ _ _ h => h.elim)
  dsimp only
  rw [hhead]
  dsimp only [edgeFrom]
  cases chain.source with
  | some source =>
    simp only [edgeStart, pure_bind]
    exact hline source.range.start _
  | none =>
    simp only [edgeStart, bind_assoc, pure_bind]
    exact .lookedPlace (.before (ne_newline_of_visible hvisible) (.report (hline _ _)))

/-- The chains of the two runs are the same. -/
theorem edges_alike {n : Nat} {source : Option (KeyPath (Span Nat))} (hn : n ≤ p.length)
    (hsource : ∀ path ∈ source, path.Within K.first.cover n p.length) :
    Alike K (Twin K p []) (edges source)
      (edges (source.map (KeyPath.mapMarks (Span.map K.place)))) Never
      (Meets K (List.map (Edge.mapMarks (Span.map K.place)))) := by
  refine .call (repeating_alike (f := Chain.map K.place) (I := Chain.Within K.first n)
    ⟨hn, by simp, hsource⟩ (fun _ _ h => nextEdge_reads h)
    (fun chain q _ => nextEdge_alike chain q) ?_ ?_) fun chain q => .done ?_
  · rintro chain s ⟨⟨_, h⟩, -⟩
    cases h
  · rintro htail chain s ⟨-, hstranded⟩
    exact nextEdge_astray htail chain s hstranded
  · simp only [Chain.map, List.map_reverse]

/-! ## Edge indexes -/

theorem indexDigit_alike (start : Nat) (digits : Option (List Char)) (p : List Char) :
    Alike K (Twin K p []) (indexDigit start digits) (indexDigit (K.place start) digits) Never
      (Meets K (Next.map id)) := by
  refine .peekOnLine (.reportToHere fun _ => .done rfl) fun b c hc =>
    .ite Iff.rfl (fun _ => .retreat (.done rfl)) fun _ => .accept ?_
  refine .ite Iff.rfl (fun _ => .done rfl) fun _ => ?_
  exact .placeOf (ne_newline_of_visible hc) (.reportToHere fun _ => .done rfl)

theorem edgeChoice_alike (start : Nat) (p : List Char) :
    Alike K (Twin K p []) (edgeChoice start) (edgeChoice (K.place start)) Never (Meets K id) := by
  refine .peekOnLine (.reportToHere fun _ => .done rfl) fun b c hc =>
    .ite Iff.rfl (fun _ => .accept ?_) fun _ => .ite Iff.rfl (fun _ => ?_) fun _ => ?_
  · exact .call (repeating_alike_never (f := id) trivial
      (fun digits p _ => indexDigit_reads start digits p)
      fun digits p _ => indexDigit_alike start digits p) fun _ _ => .done rfl
  · exact .accept (.done rfl)
  · refine .lookedBehind fun i hi => .retreat (.before hi (ne_newline_of_visible hc) ?_)
    exact .report fun _ => .reportToHere fun _ => .done rfl

theorem indexEnd_alike (start : Nat) (p : List Char) :
    Alike K (Twin K p []) (indexEnd start) (indexEnd (K.place start)) Never (Meets K id) := by
  refine .peekOnLine (.last (.reportToHere fun _ => .done rfl)) fun b c _ =>
    .ite Iff.rfl (fun _ => ?_) fun _ => ?_
  · exact .last (.accept (.done rfl))
  · exact .retreat (.last (.reportToHere fun _ => .done rfl))

theorem edgeIndex_alike (p : List Char) :
    Alike K (Twin K ('[' :: p) []) edgeIndex edgeIndex Never
      (Meets K (Option.map (EdgeIndex.mapMarks (Span.map K.place)))) := by
  refine .placeOf (by decide) (.call (edgeChoice_alike p.length _) fun choice q => ?_)
  cases choice with
  | none => exact .done rfl
  | some choice => exact .call (indexEnd_alike p.length q) fun _ _ => .here (.done rfl)

end Diagram.Grammar
