import Diagram.Proofs.Separator.Text
import Diagram.Proofs.Twin.Edge

/-!
Edges and edge indexes in front of a semicolon. A connection that the text ends in is reported by
the first run. The target of an edge may come out apart as every path does.
-/
namespace Diagram

/-- The second run has taken the parenthesis that should close the group for text. -/
def Seam.Lags (S : Seam) (t : State Nat) : Prop :=
  S.first.inGroup = true ∧ S.EndsIn ')' ∧ t.Rests S.second (';' :: S.behind)

namespace Grammar

variable {β : Type} {S : Seam} {p : List Char}

/-! ## Connections -/

theorem edgeEscape_abreast (start : Nat) (p : List Char) :
    Abreast S (S.Beside p []) (edgeEscape start)
      (Strays fun goesOn s => goesOn = true ∧ S.pairing.Spent s) := by
  refine .peekVisible (fun b hb => ?_) fun b c hc =>
    .ite (fun _ => .retreat .reportToReach) fun _ => .ite (fun _ => ?_) fun _ => .retreat .done
  · intro s t hs
    refine .apart ⟨rfl, spent_of_stands (fun x hx => ?_) hs.first⟩
    rw [List.append_nil, List.mem_reverse] at hx
    exact hb x hx
  · exact .accept (.putBack (ne_newline_of_visible hc) .done)

theorem edgeCharacter_abreast (start : Nat) (head : Option Arrowhead) (p : List Char) :
    Abreast S (S.Beside p []) (edgeCharacter start head)
      (Strays fun next s => next = .again none ∧ S.pairing.Spent s) := by
  refine .peekStray (X := Never) (.astray_reportToReach S.tail_ne_nil) (fun _ _ _ _ h => h.elim)
    fun c => .ite (fun _ => .accept .done) fun _ => .ite (fun _ => .accept .done) fun _ =>
    .ite (fun _ => .accept (.callStray (edgeEscape_abreast start _) ?_ fun goesOn q => ?_)) fun _ =>
    .ite (fun _ => .accept .done) fun _ => .retreat .done
  · rintro a b s t ⟨rfl, hs⟩
    exact .apart ⟨rfl, hs⟩
  · cases goesOn with
    | true => exact .done
    | false => exact .done

theorem edgeLine_abreast (start : Nat) (p : List Char) :
    Abreast S (S.Beside p []) (edgeLine start) (Strays (Untargeted S.pairing)) := by
  refine repeating_abreast trivial trivial (fun head p _ => edgeCharacter_reads start head p)
    (fun head p _ => edgeCharacter_reads start head p)
    (fun head p _ _ => edgeCharacter_abreast start head p) ?_
  rintro _ b s t ⟨rfl, hspent⟩
  exact .strays (repeating_astray (edgeCharacter_spent S.tail_ne_nil start none)) hspent
    fun _ _ h => h

/-! ## Chains -/

/-- How the next edge of a chain comes out apart. -/
def EdgeApart (S : Seam) (a b : Next (Chain Nat)) (s t : State Nat) : Prop :=
  (∃ x y, a = .again x ∧ b = .again y ∧ Landed S (Chain.map fun _ => ()) x y s t) ∨
    ChainStranded S.pairing a s ∨ ∃ y, b = .again y ∧ S.Lags t

theorem edgeTarget_abreast (chain : Chain Nat) (head : Arrowhead) (start : Nat)
    (targetHead : Arrowhead) (p : List Char) :
    Abreast S (S.Beside p []) (edgeTarget chain head start targetHead) (EdgeApart S) := by
  refine .here (.callStray (path_abreast p) (fun a b => ?_) fun target q => ?_)
  · rintro s t (⟨hsame, hover⟩ | ⟨-, hstranded⟩ | ⟨hs, hsome, ht⟩)
    · cases a with
      | none =>
        exact .moot (R := fun _ => True) (.astray_reportToHere S.tail_ne_nil) trivial
      | some target =>
        obtain ⟨target', rfl, htarget⟩ := Option.map_eq_some_iff.mp hsame.symm
        refine .apart (.inl ⟨_, _, rfl, rfl, ?_, hover⟩)
        have hpath : target.mapMarks (Span.map fun _ => ()) =
            target'.mapMarks (Span.map fun _ => ()) := htarget.symm
        simp only [Chain.map, List.map_cons, Edge.mapMarks, Option.map_some, hpath]
        rfl
    · cases a with
      | none =>
        exact .moot (R := fun _ => True) (.astray_reportToHere S.tail_ne_nil) trivial
      | some target => exact .apart (.inr (.inl ⟨⟨_, rfl⟩, hstranded⟩))
    · obtain ⟨target', rfl⟩ := Option.isSome_iff_exists.mp hsome
      exact .apart (.inr (.inr ⟨_, rfl, hs.1, hs.2.1, ht⟩))
  · cases target with
    | some target => exact .done
    | none => exact .reportToHere

/-- Both edges start at the same place. -/
theorem Abreast.edgeStart {E : β → β → State Nat → State Nat → Prop} {f : Nat → Grammar Nat β}
    {source : Option (KeyPath (Span Nat))} {c : Char} {b : List Char} (hc : c ≠ '\n')
    (h : ∀ start, Abreast S (S.Beside p (c :: b)) (f start) E) :
    Abreast S (S.Beside p (c :: b)) (edgeStart source c >>= f) E := by
  cases source with
  | some source => exact h source.range.start
  | none =>
    simp only [Grammar.edgeStart, bind_assoc]
    exact .lookedPlace (.before hc .report)

theorem edgeFrom_abreast (chain : Chain Nat) {c : Char} (hc : c ≠ '\n') (head : Arrowhead)
    (b p : List Char) :
    Abreast S (S.Beside p (c :: b)) (edgeFrom chain c head) (EdgeApart S) := by
  refine .edgeStart hc fun start => .accept (.callStray (edgeLine_abreast start _) ?_
    fun targetHead q => ?_)
  · rintro _ b s t ⟨rfl, hspent⟩
    exact .moot (edgeTarget_astray S.tail_ne_nil chain head start .none) hspent
  · cases targetHead with
    | none => exact .done
    | some targetHead => exact edgeTarget_abreast chain head start targetHead q

theorem nextEdge_abreast (chain : Chain Nat) (p : List Char) :
    Abreast S (S.Beside p []) (nextEdge chain) (EdgeApart S) := by
  refine .peekOnLineSame rfl .done fun b c hc => ?_
  dsimp only
  cases sourceHead? c with
  | none => exact .retreat .done
  | some head => exact edgeFrom_abreast chain hc.ne_newline head _ p

/-- How a chain of edges comes out apart. -/
def EdgesApart (S : Seam) (a b : List (Edge (Span Nat))) (s t : State Nat) : Prop :=
  Landed S (List.map (Edge.mapMarks unplaced)) a b s t ∨ S.Lags t

theorem edges_abreast {n : Nat} {source : Option (KeyPath (Span Nat))} (hn : n ≤ p.length)
    (hsource₁ : ∀ path ∈ source, path.Within S.first.cover n p.length)
    (hsource₂ : ∀ path ∈ source, path.Within S.second.cover n p.length) :
    Abreast S (S.Beside p []) (edges source) (EdgesApart S) := by
  refine .callStray (repeating_abreast (I := Chain.Within S.first n) (J := Chain.Within S.second n)
    (E := fun x y s t => Landed S (Chain.map fun _ => ()) x y s t ∨ S.Lags t)
    ⟨hn, by simp, hsource₁⟩ ⟨hn, by simp, hsource₂⟩ (fun _ _ h => nextEdge_reads h)
    (fun _ _ h => nextEdge_reads h) (fun chain q _ _ => nextEdge_abreast chain q) ?_)
    (fun x y => .pure ?_) fun _ _ => .done
  · rintro a b s t (⟨x, y, rfl, rfl, hlanded⟩ | ⟨⟨x, rfl⟩, hstranded⟩ | ⟨y, rfl, hgroup, hends, ht⟩)
    · refine Apart.landed (nextEdges_idles x) (nextEdges_idles y) ?_ s t hlanded
      rintro _ _ s t hsame rfl rfl hover
      exact .inl ⟨hsame, hover⟩
    · exact .moot (repeating_astray (nextEdge_astray S.tail_ne_nil x)) hstranded
    · obtain ⟨-, ht'⟩ := (nextEdges_idles y).rests (.inr ⟨_, rfl⟩) t ht
      exact .apart (.inr ⟨hgroup, hends, ht'⟩)
  · rintro s t (⟨hsame, hover⟩ | hlags)
    · refine .inl ⟨?_, hover⟩
      have hedges := congrArg (List.reverse ∘ Chain.edges) hsame
      simpa [Chain.map, ← List.map_reverse, unplaced] using hedges
    · exact .inr hlags

/-! ## Edge indexes -/

theorem indexDigit_abreast (start : Nat) (digits : Option (List Char)) (p : List Char) :
    Abreast S (S.Beside p []) (indexDigit start digits) Nowhere := by
  refine .peekOnLineMoot (.astray_reportToHere S.tail_ne_nil) fun b c hc =>
    .ite (fun _ => .retreat .done) fun _ => .accept (.ite (fun _ => .done) fun _ => ?_)
  exact .placeOf (ne_newline_of_visible hc) .reportToHere

theorem edgeChoice_abreast (start : Nat) (p : List Char) :
    Abreast S (S.Beside p []) (edgeChoice start) Nowhere := by
  refine .peekOnLineMoot (.astray_reportToHere S.tail_ne_nil) fun b c hc =>
    .ite (fun _ => .accept ?_) fun _ => .ite (fun _ => .accept .done) fun _ => ?_
  · exact .call (repeating_abreast trivial trivial
      (fun digits p _ => indexDigit_reads start digits p)
      (fun digits p _ => indexDigit_reads start digits p)
      (fun digits p _ _ => indexDigit_abreast start digits p) fun _ _ => .nowhere) fun _ _ => .done
  · exact .lookedPlace (.retreat (.before (ne_newline_of_visible hc) .report))

theorem indexEnd_abreast (start : Nat) (p : List Char) :
    Abreast S (S.Beside p []) (indexEnd start) Nowhere :=
  .peekOnLineMoot (Ensures.astray_reportToHere (f := pure) S.tail_ne_nil) fun _ _ _ =>
    .ite (fun _ => .last (.accept .done)) fun _ => .retreat (.last .reportToHere)

theorem edgeIndex_abreast (p : List Char) :
    Abreast S (S.Beside ('[' :: p) []) edgeIndex Nowhere := by
  refine .placeOf (by decide) (.call (edgeChoice_abreast p.length _) fun choice q => ?_)
  cases choice with
  | none => exact .done
  | some choice => exact .call (indexEnd_abreast p.length q) fun _ _ => .here .done

end Grammar

end Diagram
