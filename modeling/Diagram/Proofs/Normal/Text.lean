import Diagram.Proofs.Atoms.Container
import Diagram.Proofs.Normal.Atoms

/-!
The texts that are read have the normal form, wherever and for whatever reason they end. Only a
substitution closes the literal in front of it, so that the piece gathered last is a literal only
where the text ends; there the blanks are dropped.
-/
namespace Diagram.Grammar

variable {π : Type} {S : Substitution (Span π) → Prop}

/-! ## What is gathered -/

/-- The pieces gathered are separated, the latest is no literal, and the substitutions among them
have `S`. -/
structure Gathered.Normal (S : Substitution (Span π) → Prop) (g : Gathered π) : Prop where
  separated : Piece.Separated g.pieces
  closed : ∀ p ∈ g.pieces.head?, p.isLiteral = false
  substitutions : ∀ s, .substitution s ∈ g.pieces → S s

theorem Gathered.Normal.empty : Gathered.Normal S .empty :=
  ⟨⟨by simp [Gathered.empty], .nil⟩, by simp [Gathered.empty], by simp [Gathered.empty]⟩

/-- Only the literal at the end is written to. -/
theorem Gathered.Normal.withLiteral {g : Gathered π} (h : g.Normal S) (value raw : List Char) :
    Gathered.Normal S { g with value, raw } :=
  ⟨h.separated, h.closed, h.substitutions⟩

theorem Gathered.Normal.flush {g : Gathered π} (h : g.Normal S) :
    Piece.Separated g.flush.pieces ∧ ∀ s, .substitution s ∈ g.flush.pieces → S s := by
  cases hvalue : g.value.isEmpty with
  | true =>
    rw [Gathered.flush, if_pos hvalue]
    exact ⟨h.separated, h.substitutions⟩
  | false =>
    rw [Gathered.flush_pieces hvalue]
    refine ⟨⟨fun value raw hmem => ?_, ?_⟩, fun s hmem => h.substitutions s (by simpa using hmem)⟩
    · rcases List.mem_cons.mp hmem with heq | hmem
      · obtain ⟨rfl, -⟩ := Piece.literal.inj heq
        simpa using hvalue
      · exact h.separated.nonempty value raw hmem
    · refine List.isChain_cons.mpr ⟨fun p hp hboth => ?_, h.separated.apart⟩
      rw [h.closed p hp] at hboth
      cases hboth.2

theorem Gathered.Normal.pushSubstitution {g : Gathered π} (h : g.Normal S)
    {s : Substitution (Span π)} (hs : S s) : (g.pushSubstitution s).Normal S := by
  obtain ⟨hseparated, hsubstitutions⟩ := h.flush
  refine ⟨⟨fun value raw hmem => ?_, ?_⟩, fun p hp => ?_, fun s' hmem => ?_⟩
  · exact hseparated.nonempty value raw (by simpa [Gathered.pushSubstitution] using hmem)
  · refine List.isChain_cons.mpr ⟨fun p _ hboth => ?_, hseparated.apart⟩
    cases hboth.1
  · obtain rfl : .substitution s = p := by simpa [Gathered.pushSubstitution] using hp
    rfl
  · rcases List.mem_cons.mp hmem with heq | hmem
    · obtain rfl := Piece.substitution.inj heq
      exact hs
    · exact hsubstitutions s' hmem

/-- A text in normal form, whose substitutions have `S`. -/
def NormalText (S : Substitution (Span π) → Prop) (t : Text (Span π)) : Prop :=
  t.Normal ∧ ∀ s ∈ t.substitutions, S s

theorem Gathered.Normal.substitutions_finish {g : Gathered π} (h : g.Normal S) :
    ∀ s ∈ g.finish.filterMap Piece.substitution?, S s := by
  intro s hs
  obtain ⟨p, hp, hsubstitution⟩ := List.mem_filterMap.mp hs
  cases p with
  | literal _ _ => cases hsubstitution
  | substitution s' =>
    obtain rfl := Option.some.inj hsubstitution
    exact h.flush.2 s' (List.mem_reverse.mp hp)

theorem Gathered.Normal.doubleQuoted {g : Gathered π} (h : g.Normal S) (range : Span π) :
    NormalText S (.doubleQuoted range g.finish) :=
  ⟨h.flush.1.reverse, h.substitutions_finish⟩

/-- A list of blanks and more, latest first, does not start with a blank when these are dropped. -/
theorem endsVisible_trimmed (cs : List Char) :
    EndsVisible (String.ofList (cs.dropWhile isBlank).reverse) := by
  intro c hc
  rw [String.toList_ofList, List.getLast?_reverse] at hc
  have hvisible := List.head?_dropWhile_not isBlank cs
  rw [hc] at hvisible
  simpa using hvisible

theorem Gathered.Normal.unquoted {g : Gathered π} (h : g.Normal S) (range : Span π)
    (hne : g.trimEnd.finish ≠ []) : NormalText S (.unquoted range g.trimEnd.finish) := by
  have htrimmed : g.trimEnd.Normal S := h.withLiteral _ _
  refine ⟨⟨hne, htrimmed.flush.1.reverse, fun value raw hlast => ?_⟩, htrimmed.substitutions_finish⟩
  rw [Gathered.finish, List.getLast?_reverse] at hlast
  cases hvalue : g.trimEnd.value.isEmpty with
  | true =>
    rw [Gathered.flush, if_pos hvalue] at hlast
    cases h.closed _ hlast
  | false =>
    rw [Gathered.flush_pieces hvalue, List.head?_cons, Option.some.injEq] at hlast
    obtain ⟨rfl, rfl⟩ := Piece.literal.inj hlast
    exact ⟨endsVisible_trimmed g.value, endsVisible_trimmed g.raw⟩

theorem Gathered.Normal.kept : Gathered.Kept S (Gathered.Normal S) where
  empty := .empty
  push h _ := h.withLiteral _ _
  escape h := h.withLiteral _ _
  substitution h hx := h.pushSubstitution hx

/-! ## Texts and scalars -/

variable {F : Frame π} {T : Tape π}

/-- **Texts**: a text in any of its forms is normal. -/
theorem text_normal {role : Role π} (hrole : role.Inserts F S) (p : List Char) :
    Ensures (State.At F p []) (text role) fun r _ => ∀ t ∈ r, NormalText S t := by
  refine text_ensures (fun p c _ _ => ?_) (fun p => ?_)
    (fun _ _ => ⟨trivial, by simp [Text.substitutions, Text.pieces?]⟩)
    (fun _ _ _ _ => ⟨trivial, by simp [Text.substitutions, Text.pieces?]⟩) p
  · refine (unquotedText_keeps Gathered.Normal.kept.unquoted hrole .empty).weaken
      fun r _ h t ht => ?_
    obtain ⟨u, i, hu, hne, rfl⟩ := h t ht
    exact hu.unquoted _ hne
  · refine (doubleQuotedText_keeps Gathered.Normal.kept hrole p).weaken fun t _ h => ?_
    obtain ⟨g, range, hg, rfl⟩ := h
    exact hg.doubleQuoted range

/-- A text that is normal makes a scalar that is. -/
theorem scalarOf_normal {ρ : Type} {t : Text ρ} (h : t.Normal) : (scalarOf t).Normal := by
  unfold scalarOf
  split
  case h_1 range text raw =>
    split_ifs with hnull htrue hfalse
    · trivial
    · trivial
    · trivial
    · cases hnumber : numberValue? text.toList with
      | some value => exact ⟨value, hnumber, rfl⟩
      | none =>
        refine ⟨h, fun range' value raw' heq => ?_⟩
        obtain ⟨-, heq⟩ := Text.unquoted.inj heq
        obtain ⟨rfl, -⟩ := Piece.literal.inj (List.singleton_inj.mp heq)
        simp [readsAsScalar, hnull, htrue, hfalse, hnumber]
  case h_2 hplain => exact ⟨h, fun range value raw heq => (hplain range value raw heq).elim⟩

/-- All that is read has the normal form; no substitutions are read in names. -/
theorem normal_fits : Fits T Atom.Normal where
  name _ p s hs t ht := by
    obtain ⟨hnormal, hnone⟩ := text_normal (S := fun _ => False) Role.key_inserts p s hs t ht
    exact ⟨hnormal, List.eq_nil_iff_forall_not_mem.mpr hnone⟩
  scalar _ p s hs t ht :=
    scalarOf_normal (text_normal (Role.value_inserts Fits.trivial) p s hs t ht).1
  insertion _ h := h
  spread _ h := h

end Diagram.Grammar
