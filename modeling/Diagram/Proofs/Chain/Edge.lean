import Diagram.Proofs.Chain.Word

/-!
Chains of connections between names. `Hop.written` is how a connection is written and `behindName`
how a chain goes on behind a name; reading goes from one name to the next, and every hop adds the
edge between the two.
-/
namespace Diagram

/-- A connection of a chain: its heads and the number of dashes between them. -/
structure Hop where
  sourceHead : Arrowhead
  dashes : Nat
  targetHead : Arrowhead
  deriving DecidableEq, Repr

namespace Hop

def written (hop : Hop) : List Char :=
  (hop.sourceHead.char? true).toList ++
    (List.replicate hop.dashes '-' ++ (hop.targetHead.char? false).toList)

/-- There is a dash, and a second one where there is no head. -/
structure Proper (hop : Hop) : Prop where
  dash : 1 ≤ hop.dashes
  bare : hop.sourceHead = .none → hop.targetHead = .none → 2 ≤ hop.dashes

instance (hop : Hop) : Decidable hop.Proper :=
  decidable_of_iff
    (1 ≤ hop.dashes ∧ (hop.sourceHead = .none → hop.targetHead = .none → 2 ≤ hop.dashes))
    ⟨fun h => ⟨h.1, h.2⟩, fun h => ⟨h.dash, h.bare⟩⟩

/-- The edge that a connection from one name to another makes. -/
def edge (hop : Hop) (source target : String) : Edge Unit :=
  ⟨(), some (wordPath source), hop.sourceHead, some (wordPath target), hop.targetHead⟩

/-- The first character of a connection tells the head at its source. -/
theorem Proper.written_cons {hop : Hop} (h : hop.Proper) :
    ∃ c n, hop.written = c :: (List.replicate n '-' ++ (hop.targetHead.char? false).toList) ∧
      Grammar.sourceHead? c = some hop.sourceHead ∧ isBlank c = false ∧
      (hop.sourceHead ≠ .filled → c = '<' ∨ c = '-') := by
  obtain ⟨head, dashes, target⟩ := hop
  obtain ⟨n, rfl⟩ := Nat.exists_eq_add_of_le' (show 1 ≤ dashes from h.dash)
  cases head with
  | none => exact ⟨'-', n, rfl, rfl, by decide, fun _ => .inr rfl⟩
  | hollow => exact ⟨'<', n + 1, rfl, rfl, by decide, fun _ => .inl rfl⟩
  | filled => exact ⟨'*', n + 1, rfl, rfl, by decide, fun h => absurd rfl h⟩

end Hop

/-- A chain: names and connections with single blanks between them. -/
def chainText (first : String) : List (Hop × String) → List Char
  | [] => first.toList
  | (hop, next) :: rest => first.toList ++ ' ' :: (hop.written ++ ' ' :: chainText next rest)

/-- What is written of a chain behind a name and the blank that follows it, in front of `u`. -/
def behindName (u : List Char) : List (Hop × String) → List Char
  | [] => u
  | (hop, next) :: rest => hop.written ++ ' ' :: (chainText next rest ++ u)

theorem behindName_length_le (first : String) (hops : List (Hop × String)) (u : List Char) :
    (behindName u hops).length ≤ (chainText first hops ++ u).length := by
  cases hops with
  | nil => simp [behindName, chainText]
  | cons hop rest =>
    simp only [behindName, chainText, List.length_append, List.length_cons]
    omega

/-- The edges of a chain, each from the name in front of its connection to the one behind it. -/
def chainEdges (first : String) : List (Hop × String) → List (Edge Unit)
  | [] => []
  | (hop, next) :: rest => hop.edge first next :: chainEdges next rest

/-- The connections of a chain are proper, and there is a name behind each. -/
def ProperHops (hops : List (Hop × String)) : Prop :=
  ∀ hop ∈ hops, hop.1.Proper ∧ IsWord hop.2

instance (hops : List (Hop × String)) : Decidable (ProperHops hops) :=
  inferInstanceAs (Decidable (∀ hop ∈ hops, _))

namespace Grammar

variable {π : Type} {F : Frame π} {p u b : List Char}

/-! ## Connections -/

/-- A connection goes on with dashes and the head at its target. -/
theorem edgeLine_written {start : π} (n : Nat) (head : Arrowhead) :
    Ahead F p [] (List.replicate n '-' ++ ((head.char? false).toList ++ ' ' :: u)) (edgeLine start)
      (Arrives F (' ' :: u) fun r => r = some head) := by
  rw [edgeLine]
  induction n generalizing p with
  | zero =>
    refine .stop ?_
    cases head with
    | none =>
      exact .peek (.no (by decide) (.no (by decide) (.no (by decide) (.no (by decide)
        (.retreat (.done ⟨_, rfl, rfl⟩))))))
    | hollow => exact .peek (.yes rfl (.accept (.done ⟨_, rfl, rfl⟩)))
    | filled => exact .peek (.no (by decide) (.yes rfl (.accept (.done ⟨_, rfl, rfl⟩))))
  | succ n ih =>
    refine .again (v := List.replicate n '-' ++ ((head.char? false).toList ++ ' ' :: u))
      (R := fun h => h = none) ?_ (by simp) fun h q hh => ?_
    · exact .peek (.no (by decide) (.no (by decide) (.no (by decide) (.yes rfl
        (.accept (.done ⟨_, rfl, rfl⟩))))))
    · subst hh
      exact ih

/-- A name ends in front of a connection. -/
theorem EndsWord.hop {hop : Hop} (h : hop.Proper) (v : List Char) :
    EndsWord F (hop.written ++ ' ' :: v) := by
  obtain ⟨head, dashes, target⟩ := hop
  obtain ⟨n, rfl⟩ := Nat.exists_eq_add_of_le' (show 1 ≤ dashes from h.dash)
  cases head with
  | hollow => exact .arrow
  | filled => exact .connector (.inr rfl) (x := '-') rfl
  | none =>
    -- a dash is followed by another one, or by the head at the target
    cases n with
    | succ n => exact .connector (.inl rfl) (x := '-') rfl
    | zero =>
      cases target with
      | none => exact absurd (h.bare rfl rfl) (by decide)
      | hollow => exact .connector (.inl rfl) (x := '>') rfl
      | filled => exact .connector (.inl rfl) (x := '*') rfl

/-- A hop adds the edge from the name in front of it to the one behind it. -/
theorem nextEdge_hop {hop : Hop} (hhop : hop.Proper) {source next : String} {v : List Char}
    (hpath : ∀ p, Ahead F p [] (' ' :: v) path
      (Arrives F u fun r => ∃ k, r = some k ∧ k.mapMarks (fun _ => ()) = wordPath next))
    {edges : List (Edge (Span π))} {k : KeyPath (Span π)}
    (hk : k.mapMarks (fun _ => ()) = wordPath source) :
    Ahead F p [] (hop.written ++ ' ' :: v) (nextEdge ⟨edges, some k⟩)
      (Arrives F u fun r => ∃ chain, r = .again chain ∧
        ∃ e k', chain = ⟨e :: edges, some k'⟩ ∧ k'.mapMarks (fun _ => ()) = wordPath next ∧
          e.mapMarks (fun _ => ()) = hop.edge source next) := by
  obtain ⟨c, n, hwritten, hhead, hvisible, -⟩ := hhop.written_cons
  rw [hwritten, List.cons_append, List.append_assoc]
  refine .peekOnLine (b := []) (by simp) hvisible ?_
  simp only [hhead, edgeFrom, edgeStart, pure_bind]
  refine .accept (.call (edgeLine_written n hop.targetHead) fun r q hr => ?_)
  subst hr
  refine .here (.call (hpath _) fun r q' hr => ?_)
  obtain ⟨k', rfl, hk'⟩ := hr
  refine .done ⟨_, rfl, _, k', rfl, hk', ?_⟩
  simp [Edge.mapMarks, Hop.edge, hk, hk']

/-! ## Chains -/

/-- A chain ends in front of `u`: there the source ends, or the edge group is closed and has an
index. -/
inductive EndsChain (F : Frame π) : List Char → Prop
  | source : EndsChain F []
  | group {u : List Char} (h : F.inGroup = true) : EndsChain F (')' :: '[' :: u)

theorem EndsChain.endsWord (h : EndsChain F u) : EndsWord F u := by
  cases h with
  | source => exact .source
  | group h => exact .group h

theorem nextEdge_end {chain : Chain π} (hu : EndsChain F u) :
    Ahead F p [] u (nextEdge chain)
      (Arrives F u fun r => ∃ chain', r = .stop chain' ∧ chain' = chain) := by
  cases hu with
  | source => exact .peekLineEnd (by simp [EndsLine]) (.done ⟨_, rfl, rfl⟩)
  | group _ =>
    exact .peekOnLine (b := []) (by simp) (by decide) (.retreat (.done ⟨_, rfl, rfl⟩))

/-- A name of a chain is read as a path, with the blank behind it. -/
theorem path_chain {first : String} {hops : List (Hop × String)} {a : List Char} (ha : IsGap a)
    (hfirst : IsWord first) (hhops : ProperHops hops) (hu : EndsChain F u) :
    Ahead F p [] (a ++ (chainText first hops ++ u)) path
      (Arrives F (behindName u hops) fun r =>
        ∃ k, r = some k ∧ k.mapMarks (fun _ => ()) = wordPath first) := by
  cases hops with
  | nil => simpa [chainText, behindName] using path_word ha hfirst (.inl rfl) hu.endsWord
  | cons hop rest =>
    obtain ⟨hop, next⟩ := hop
    have hhop := hhops _ List.mem_cons_self
    have hword := path_word (p := p) ha hfirst (.inr rfl)
      (.hop (F := F) hhop.1 (chainText next rest ++ u))
    simpa [chainText, behindName] using hword

/-- **Chains**: behind its first name, a chain is read as its edges. -/
theorem edges_chain {first : String} {hops : List (Hop × String)} (hhops : ProperHops hops)
    (hu : EndsChain F u) {edges : List (Edge (Span π))} {k : KeyPath (Span π)}
    (hk : k.mapMarks (fun _ => ()) = wordPath first) :
    Ahead F p [] (behindName u hops) (repeating nextEdge ⟨edges, some k⟩)
      (Arrives F u fun chain => ∃ new : List (Edge (Span π)), chain.edges = new.reverse ++ edges ∧
        new.map (Edge.mapMarks fun _ => ()) = chainEdges first hops) := by
  induction hops generalizing first edges k p with
  | nil =>
    refine .mono (.stop (nextEdge_end hu)) fun chain h => ?_
    subst h
    exact ⟨[], rfl, rfl⟩
  | cons hop rest ih =>
    obtain ⟨hop, next⟩ := hop
    have hhop := hhops _ List.mem_cons_self
    have hrest : ProperHops rest := fun h hh => hhops h (List.mem_cons_of_mem _ hh)
    have hpath : ∀ p, Ahead F p [] (' ' :: (chainText next rest ++ u)) path
        (Arrives F (behindName u rest) fun r =>
          ∃ k, r = some k ∧ k.mapMarks (fun _ => ()) = wordPath next) := fun _ =>
      path_chain (a := [' ']) (.inr rfl) hhop.2 hrest hu
    refine .again (nextEdge_hop hhop.1 hpath hk) ?_ fun chain q h => ?_
    · have hle := behindName_length_le next rest u
      simp only [behindName, List.length_append, List.length_cons] at hle ⊢
      omega
    · obtain ⟨e, k', rfl, hk', he⟩ := h
      refine .mono (ih hrest hk') fun chain h => ?_
      obtain ⟨new, hedges, hnew⟩ := h
      exact ⟨e :: new, by simp [hedges], by rw [List.map_cons, he, hnew, chainEdges]⟩

end Grammar

end Diagram
