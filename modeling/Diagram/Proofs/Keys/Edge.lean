import Diagram.Proofs.Keys.Parts
import Diagram.Proofs.Lasting
import Diagram.Proofs.Sound.Container

/-!
The edges that are read are formed as edges should be, and so are the keys around them. Edges are
gathered in a chain that hands the target of each edge on as the source of the next; where one of
them is missing, that has been reported before the edge is added.

All of this holds wherever the edges are read.
-/
namespace Diagram.Grammar

variable {π : Type}

/-- A problem with the code starts where the span does. -/
def Reported (problems : List (Problem π)) (code : Code) (span : Span π) : Prop :=
  ∃ x ∈ problems, x.cause.code = code ∧ x.start = .place span.start

theorem Noticed.reported {cause : Cause} {start stop : π} {problems : List (Problem π)}
    (h : Noticed cause start problems) : Reported problems cause.code ⟨start, stop⟩ := by
  obtain ⟨x, hx, hcause, hstart⟩ := h
  exact ⟨x, hx, congrArg Cause.code hcause, hstart⟩

theorem Reported.lasting {xs ys : List (Problem π)} (hsuffix : xs <:+ ys) (code : Code)
    (span : Span π) (h : Reported xs code span) : Reported ys code span := by
  obtain ⟨x, hx, hreported⟩ := h
  exact ⟨x, hsuffix.subset hx, hreported⟩

theorem formed_lasting (k : Key (Span π)) : Lasting fun xs => k.Formed (Reported xs) :=
  fun _ _ hsuffix h => h.mono (Reported.lasting hsuffix)

/-! ## Paths and edges -/

theorem path_segments :
    Leaves (path : Grammar π (Option (KeyPath (Span π)))) fun r _ => ∀ x ∈ r, x.segments ≠ [] := by
  refine .skip fun _ => .skip fun segments => .ite (fun _ => .pure fun _ => by simp) fun hne => ?_
  refine .skip fun _ => .pure fun _ x hx => ?_
  obtain rfl := Option.some.inj hx
  simpa using hne

theorem chained_lasting (edges : List (Edge (Span π))) :
    Lasting fun xs => Edge.Chained (Reported xs) edges :=
  fun _ _ hsuffix h => h.mono (Reported.lasting hsuffix)

/-- The edges gathered are a chain, which goes on where the next one starts. -/
structure Chain.Formed (reported : Code → Span π → Prop) (chain : Chain π) : Prop where
  edges : Edge.Chained reported chain.edges.reverse
  last : ∀ e ∈ chain.edges.head?, chain.source = e.target
  source : ∀ path ∈ chain.source, path.segments ≠ []

theorem Chain.Formed.lasting (chain : Chain π) : Lasting fun xs => chain.Formed (Reported xs) :=
  fun _ _ hsuffix h => ⟨h.edges.mono (Reported.lasting hsuffix), h.last, h.source⟩

/-- An edge from the source of a chain leads on to its target. -/
theorem Chain.Formed.next {reported : Code → Span π → Prop} {chain : Chain π}
    (h : chain.Formed reported) {e : Edge (Span π)} (he : e.Formed reported)
    (hsource : e.source = chain.source) : Chain.Formed reported ⟨e :: chain.edges, e.target⟩ where
  edges := by
    refine ⟨fun e' he' => ?_, ?_⟩
    · obtain rfl | he' := List.mem_cons.mp (List.mem_reverse.mp he')
      · exact he
      · exact h.edges.formed e' (List.mem_reverse.mpr he')
    · have hlinked := List.isChain_reverse.mp h.edges.linked
      refine List.isChain_reverse.mpr (List.isChain_cons.mpr ⟨fun e' he' => ?_, hlinked⟩)
      exact hsource.trans (h.last e' he')
  last _ hlast := congrArg Edge.target (Option.some.inj hlast)
  source := he.target

theorem edgeStart_noticed (source : Option (KeyPath (Span π))) (c : Char) :
    Leaves (edgeStart source c)
      fun start xs => source = none → Noticed .missingSource start xs := by
  cases source with
  | some source => exact .pure fun _ h => by cases h
  | none => exact .skip fun _ => .skip fun _ => .report (.pure fun _ h _ => h)

theorem edgeTarget_formed (chain : Chain π) (head targetHead : Arrowhead) (start : π) :
    Leaves (edgeTarget chain head start targetHead) fun next xs =>
      (chain.source = none → Noticed .missingSource start xs) →
        chain.Formed (Reported xs) → next.gathered.Formed (Reported xs) := by
  refine .skip fun lineEnd => .call path_segments fun target htarget => ?_
  cases target with
  | some target =>
    refine .pure fun xs hstart h => h.next (e := ⟨_, chain.source, head, some target, _⟩) ?_ rfl
    exact ⟨h.source, htarget, fun hnone => (hstart hnone).reported, by simp⟩
  | none =>
    refine .reportToHere (.pure fun xs hnoticed hstart h => ?_)
    refine h.next (e := ⟨_, chain.source, head, none, _⟩) ?_ rfl
    exact ⟨h.source, by simp, fun hnone => (hstart hnone).reported, fun _ => hnoticed.reported⟩

theorem nextEdge_formed (chain : Chain π) :
    Leaves (nextEdge chain) fun next xs =>
      chain.Formed (Reported xs) → next.gathered.Formed (Reported xs) := by
  refine .skip fun c => ?_
  cases c with
  | none => exact .pure fun _ h => h
  | some c =>
    dsimp only
    cases sourceHead? c with
    | none => exact .skip fun _ => .pure fun _ h => h
    | some head =>
      refine .callLasting
        (H := fun start xs => chain.source = none → Noticed .missingSource start xs)
        (fun start xs ys hsuffix h hnone => Noticed.lasting _ _ xs ys hsuffix (h hnone))
        (edgeStart_noticed chain.source c) fun start => .skip fun _ => .skip fun targetHead => ?_
      cases targetHead with
      | none => exact .pure fun _ _ h => h
      | some targetHead => exact edgeTarget_formed chain head targetHead start

/-- **Edges**: the edges of a chain are linked, and what is missing of them is reported. -/
theorem edges_formed {source : Option (KeyPath (Span π))}
    (hsource : ∀ x ∈ source, x.segments ≠ []) :
    Leaves (edges source) fun edges xs => Edge.Chained (Reported xs) edges := by
  refine .callLasting (H := fun chain xs => Chain.Formed (Reported xs) chain) Chain.Formed.lasting
    (.repeating Chain.Formed.lasting nextEdge_formed fun _ => ?_) fun chain =>
      .pure fun _ h => h.edges
  exact ⟨⟨by simp, .nil⟩, by simp, hsource⟩

/-! ## Edge groups -/

theorem groupPath_formed (key : Key (Span π)) :
    Leaves (groupPath key) fun r xs => key.Formed (Reported xs) → r.1.Formed (Reported xs) := by
  refine .skip fun behind => ?_
  cases behind with
  | lineEnd | other => exact .pure fun _ h => h
  | found =>
    refine .call path_segments fun path hpath => .pure fun _ h => ?_
    exact ⟨h.path, hpath, h.edges, h.primary⟩

theorem groupIndex_formed (key : Key (Span π)) :
    Leaves (groupIndex key) fun r xs => key.Formed (Reported xs) → r.1.Formed (Reported xs) := by
  refine .skip fun behind => ?_
  cases behind with
  | lineEnd => exact .pure fun _ h => h
  | other => exact groupPath_formed key
  | found =>
    refine .skip fun edgeIndex s h => groupPath_formed { key with edgeIndex } s ?_
    exact ⟨h.path, h.edgePath, h.edges, h.primary⟩

/-- At most a path has been read of a key, and nothing is missing of that. -/
structure Fresh (key : Key (Span π)) : Prop where
  path : ∀ path ∈ key.path, path.segments ≠ []
  edges : key.edges = []
  edgePath : key.edgePath = none
  primary : key.primary = none
  value : key.value = none

/-- With edges, such a key is formed as they are. -/
theorem Fresh.formed {key : Key (Span π)} (h : Fresh key) {reported : Code → Span π → Prop}
    {path : Option (KeyPath (Span π))} (hpath : ∀ x ∈ path, x.segments ≠ [])
    {edges : List (Edge (Span π))} (hedges : Edge.Chained reported edges) :
    Key.Formed reported { key with path, edges } :=
  ⟨hpath, by simp [h.edgePath], hedges, by simp [h.primary]⟩

/-- Alone, it is formed too. -/
theorem Fresh.alone {key : Key (Span π)} (h : Fresh key) {reported : Code → Span π → Prop} :
    key.Formed reported := by
  refine ⟨h.path, by simp [h.edgePath], ?_, by simp [h.primary]⟩
  rw [h.edges]
  exact ⟨by simp, .nil⟩

theorem groupParts_formed {key : Key (Span π)} (hkey : Fresh key) :
    Leaves (groupParts key) fun r xs => r.1.Formed (Reported xs) := by
  refine .call path_segments fun source hsource => .callLasting
    (H := fun edges xs => Edge.Chained (Reported xs) edges) chained_lasting
    (edges_formed hsource) fun edges => .skip fun behind => ?_
  cases behind with
  | found => exact fun s h => groupIndex_formed _ s (hkey.formed hkey.path h)
  | other | lineEnd => exact .skip fun _ => .pure fun _ h => hkey.formed hkey.path h

end Diagram.Grammar
