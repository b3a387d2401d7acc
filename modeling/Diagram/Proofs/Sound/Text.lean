import Diagram.Grammar.Text
import Diagram.Proofs.Sound.Block

/-!
Texts, key paths and substitutions keep the rules of the reader, and their nodes lie where they were
read: the pieces of a text and the segments of a path follow each other in the order they are
written.
-/
namespace Diagram.Grammar

variable {π : Type} {F : Frame π}

/-! ## Literal text -/

section

variable {ρ : Type} {cover : Nat → Nat → Span π} {n i j : Nat} {g : Gathered π}

/-- The pieces gathered lie in order between `n` and `i`. -/
def Gathered.Within (cover : Nat → Nat → Span π) (n : Nat) (g : Gathered π) (i : Nat) : Prop :=
  InOrder (Piece.Within cover) g.pieces.reverse n i

theorem Gathered.Within.mono (h : g.Within cover n i) (hij : i ≤ j) : g.Within cover n j :=
  InOrder.mono h hij

theorem Gathered.Within.flush (h : g.Within cover n i) : g.flush.Within cover n i := by
  unfold Gathered.flush
  split
  · exact h
  · exact InOrder.snoc h fun _ hm => hm

theorem Gathered.Within.pushSubstitution {s : Substitution (Span π)} (h : g.Within cover n i)
    (hs : s.Within cover i j) : (g.pushSubstitution s).Within cover n j :=
  InOrder.snoc h.flush fun _ hm => Substitution.Within.mono hs hm (Nat.le_refl j)

theorem Gathered.Within.finish (h : g.Within cover n i) :
    Piece.AllInOrder cover g.finish n i := by
  rw [Piece.allInOrder_iff]
  exact h.flush

end

/-! ## Unquoted text -/

/-- The substitutions that a text in the given role may hold lie from their dollar sign to where
reading has come. -/
def Role.Reads (F : Frame π) (role : Role π) : Prop :=
  ∀ p, Ensures (State.At F ('$' :: p) []) role.substitution?
    (Onward F (p.length + 1) fun r j => ∀ s ∈ r, s.Within F.cover p.length j)

theorem Role.key_reads : Role.Reads F .key :=
  fun _ => .done (Nat.le_refl _) (by simp)

/-- Up to the index `i`, an unquoted text has been read that starts at `n`. -/
def Unquoted.Within (F : Frame π) (n : Nat) (u : Unquoted π) (i : Nat) : Prop :=
  ∃ j, n ≤ j ∧ j ≤ i ∧ u.stop = F.mark j ∧ u.text.Within F.cover n j

variable {n : Nat} {u : Unquoted π} {role : Role π}

theorem Unquoted.Within.mono {i i' : Nat} (h : u.Within F n i) (hi : i ≤ i') :
    u.Within F n i' := by
  obtain ⟨j, hn, hj, hstop, htext⟩ := h
  exact ⟨j, hn, by omega, hstop, htext⟩

/-- More literal text moves the end of the text to where reading has come, or leaves it. -/
theorem Unquoted.Within.literal {i : Nat} {text : Gathered π} (h : u.Within F n i)
    (htext : text.pieces = u.text.pieces) {i' : Nat} (hi : i ≤ i') :
    Unquoted.Within F n ⟨text, F.mark i'⟩ i' ∧ Unquoted.Within F n ⟨text, u.stop⟩ i' := by
  obtain ⟨j, hn, hj, hstop, hin⟩ := h
  have hin' : text.Within F.cover n j := by
    rw [Gathered.Within, htext]
    exact hin
  exact ⟨⟨i', by omega, Nat.le_refl _, rfl, hin'.mono (by omega)⟩, j, hn, by omega, hstop, hin'⟩

theorem unquotedEscape_reads {p : List Char} (hu : u.Within F n (p.length + 1)) :
    Ensures (State.At F ('\\' :: p) []) (unquotedEscape u)
      (Steps F p.length (Unquoted.Within F n) (Unquoted.Within F n)) := by
  refine .read ?_ fun c => .ite (fun _ => ?_) fun _ => .here ?_
  · refine .placeOf (by decide) (.reportToReach (Steps.stop (by simp) (hu.mono (by simp))))
  · refine .peekOnLine (Steps.stop (by simp; omega) (hu.mono (by simp))) fun b x hx => ?_
    refine .accept (.putBack (ne_newline_of_visible hx) (Steps.again ?_ (hu.mono ?_)))
    · simp
      omega
    · simp
      omega
  · exact Steps.again (by simp only [List.length_cons]; omega) (hu.literal rfl (by simp)).1

theorem unquotedBehind_reads (hrole : role.Reads F) {p : List Char} {c : Char}
    (hu : u.Within F n p.length) :
    Ensures (State.At F (c :: p) []) (unquotedBehind role u c)
      (Steps F p.length (Unquoted.Within F n) (Unquoted.Within F n)) := by
  have hstop : ∀ text : Gathered π, text.pieces = u.text.pieces → ∀ i, p.length < i →
      Unquoted.Within F n ⟨text, if isBlank c then u.stop else F.mark (p.length + 1)⟩ i := by
    intro text htext i hi
    split
    · exact (hu.literal htext (by omega)).2
    · exact (hu.literal htext (Nat.le_succ _)).1.mono hi
  refine .here ?_
  by_cases hdollar : c = '$'
  · subst hdollar
    refine .call (hrole p) fun r q hq hr => ?_
    cases r with
    | none =>
      exact Steps.again hq (hstop _ rfl _ hq)
    | some s =>
      obtain ⟨j, hn, hj, -, htext⟩ := hu
      refine .here (Steps.again (by omega) ⟨q.length, by omega, Nat.le_refl _, rfl, ?_⟩)
      exact (htext.mono hj).pushSubstitution (hr s rfl)
  · rw [if_neg hdollar]
    by_cases hescape : c = '\\'
    · subst hescape
      exact unquotedEscape_reads (hstop _ rfl _ (Nat.le_refl _))
    · refine .ite (fun h => absurd h hescape) fun _ => ?_
      exact Steps.again (by simp) (hstop _ rfl _ (by simp))

theorem groupEnd_reads {p : List Char} (hu : u.Within F n p.length) :
    Ensures (State.At F p [')']) (groupEnd u ')')
      (Steps F p.length (Unquoted.Within F n) (Unquoted.Within F n)) := by
  refine .known (l := []) fun hc => ?_
  refine .peekOnLine (Steps.stop (Nat.le_refl _) hu) fun b x _ =>
    .retreat (.ite (fun _ => ?_) fun _ => ?_)
  · exact Steps.stop (Nat.le_refl _) hu
  · refine .peekKnown hc (.accept (.here (Steps.again (by simp) ?_)))
    exact (hu.literal rfl (by simp)).1

theorem unquotedConnector_reads (hrole : role.Reads F) {p : List Char} {c : Char}
    (hu : u.Within F n p.length) :
    Ensures (State.At F p [c]) (unquotedConnector role u c)
      (Steps F p.length (Unquoted.Within F n) (Unquoted.Within F n)) := by
  refine .known (l := []) fun hc => ?_
  refine .peek (Steps.stop (Nat.le_refl _) hu) fun x => .retreat (.ite (fun _ => ?_) fun _ => ?_)
  · exact Steps.stop (Nat.le_refl _) hu
  · exact .peekKnown hc (.accept (unquotedBehind_reads hrole hu))

theorem unquotedCharacter_reads (hrole : role.Reads F) {p : List Char}
    (hu : u.Within F n p.length) :
    Ensures (State.At F p []) (unquotedCharacter role u)
      (Steps F p.length (Unquoted.Within F n) (Unquoted.Within F n)) := by
  refine .peek (Steps.stop (Nat.le_refl _) hu) fun c => .inGroup ?_
  refine .ite (fun hclose => ?_) fun _ => .ite (fun _ => ?_) fun _ => .ite (fun _ => ?_) fun _ => ?_
  · obtain rfl : c = ')' := by simp at hclose; exact hclose.2
    exact groupEnd_reads hu
  · exact .retreat (Steps.stop (Nat.le_refl _) hu)
  · exact unquotedConnector_reads hrole hu
  · exact .accept (unquotedBehind_reads hrole hu)

theorem unquotedText_reads (hrole : role.Reads F) :
    Reads F (Text.Within F.cover) (unquotedText role) := by
  intro p
  have hempty : Unquoted.Within F p.length ⟨.empty, F.mark p.length⟩ p.length :=
    ⟨p.length, Nat.le_refl _, Nat.le_refl _, rfl, Nat.le_refl _⟩
  refine .here (.call (repeating_ensures (I := Unquoted.Within F p.length)
    (fun _ _ hu => unquotedCharacter_reads hrole hu) hempty) fun u q hq hu => ?_)
  obtain ⟨j, hn, hj, hstop, htext⟩ := hu
  refine .ite (fun _ => .done hq (by simp)) fun _ => .done hq fun t ht => ?_
  obtain rfl := Option.some.inj ht
  rw [hstop]
  exact ⟨p.length, j, Nat.le_refl _, hn, hj, rfl,
    Gathered.Within.finish (g := u.text.trimEnd) htext⟩

/-! ## Quoted text -/

theorem doubleQuotedEscape_reads {g : Gathered π} {start : π} {p : List Char}
    (hg : g.Within F.cover n p.length) :
    Ensures (State.At F ('\\' :: p) []) (doubleQuotedEscape start g)
      (Steps F p.length (Gathered.Within F.cover n) (Gathered.Within F.cover n)) := by
  refine .read ?_ fun c => ?_
  · refine .placeOf (by decide) (.reportToReach (.reportToReach (Steps.stop (by simp) ?_)))
    exact hg.mono (by simp)
  · refine Steps.again (by simp only [List.length_cons]; omega) ?_
    split
    · exact hg.mono (by simp; omega)
    · exact InOrder.mono hg (by simp; omega)

theorem doubleQuotedBehind_reads (hrole : role.Reads F) {g : Gathered π} {start : π}
    {p : List Char} {c : Char} (hg : g.Within F.cover n p.length) :
    Ensures (State.At F (c :: p) []) (doubleQuotedBehind role start g c)
      (Steps F p.length (Gathered.Within F.cover n) (Gathered.Within F.cover n)) := by
  by_cases hdollar : c = '$'
  · subst hdollar
    refine .call (hrole p) fun r q hq hr => ?_
    cases r with
    | none => exact Steps.again hq (InOrder.mono hg (by omega))
    | some s => exact Steps.again hq (hg.pushSubstitution (hr s rfl))
  · rw [doubleQuotedBehind, if_neg hdollar]
    refine .ite (fun _ => ?_) fun _ => ?_
    · exact Steps.stop (by simp) (hg.mono (by simp))
    · by_cases hescape : c = '\\'
      · subst hescape
        exact doubleQuotedEscape_reads hg
      · refine .ite (fun h => absurd h hescape) fun _ => ?_
        exact Steps.again (by simp) (InOrder.mono hg (by simp))

theorem doubleQuotedCharacter_reads (hrole : role.Reads F) {g : Gathered π} {start : π}
    {p : List Char} (hg : g.Within F.cover n p.length) :
    Ensures (State.At F p []) (doubleQuotedCharacter role start g)
      (Steps F p.length (Gathered.Within F.cover n) (Gathered.Within F.cover n)) := by
  refine .peek (.reportToReach (Steps.stop (Nat.le_refl _) hg)) fun c =>
    .ite (fun _ => ?_) fun _ => ?_
  · exact .retreat (.reportToHere (Steps.stop (Nat.le_refl _) hg))
  · exact .accept (doubleQuotedBehind_reads hrole hg)

theorem doubleQuotedText_reads (hrole : role.Reads F) (p : List Char) :
    Ensures (State.At F ('"' :: p) []) (doubleQuotedText role)
      (Onward F p.length fun t j => t.Within F.cover p.length j) := by
  have hempty : Gathered.empty.Within F.cover p.length (p.length + 1) := Nat.le_succ p.length
  refine .placeOf (by decide) (.call (repeating_ensures (I := Gathered.Within F.cover p.length)
    (fun _ _ hg => doubleQuotedCharacter_reads hrole hg) hempty) fun g q hq hg => ?_)
  rw [List.length_cons] at hq
  refine .here (.done (by omega) ?_)
  exact ⟨p.length, q.length, Nat.le_refl _, by omega, Nat.le_refl _, rfl, hg.finish⟩

theorem singleQuotedCharacter_reads (start : π) (text p : List Char) :
    Ensures (State.At F p []) (singleQuotedCharacter start text)
      (Steps F p.length (fun _ _ => True) fun _ _ => True) := by
  refine .peek (.reportToReach (Steps.stop (Nat.le_refl _) trivial)) fun c =>
    .ite (fun _ => ?_) fun _ => .accept (.ite (fun _ => ?_) fun _ => .ite (fun _ => ?_) fun _ => ?_)
  · exact .retreat (.reportToHere (Steps.stop (Nat.le_refl _) trivial))
  · refine .peek (Steps.stop (by simp) trivial) fun x => .ite (fun _ => ?_) fun _ => ?_
    · exact .accept (Steps.again
        (by simp only [List.length_append, List.length_cons]; omega) trivial)
    · exact .retreat (Steps.stop (by simp) trivial)
  · refine .peek (Steps.again (by simp) trivial) fun x => .ite (fun _ => ?_) fun _ => ?_
    · exact .accept (Steps.again
        (by simp only [List.length_append, List.length_cons]; omega) trivial)
    · exact .retreat (Steps.again (by simp) trivial)
  · exact Steps.again (by simp) trivial

theorem singleQuotedText_reads (p : List Char) :
    Ensures (State.At F ('\'' :: p) []) singleQuotedText
      (Onward F p.length fun t j => t.Within F.cover p.length j) := by
  refine .placeOf (by decide) (.call (repeating_ensures
    (fun text p _ => singleQuotedCharacter_reads _ text p) trivial) fun text q hq _ => ?_)
  rw [List.length_cons] at hq
  refine .here (.done (by omega) ?_)
  exact ⟨p.length, q.length, Nat.le_refl _, by omega, Nat.le_refl _, rfl, trivial⟩
/-! ## Texts, paths and substitutions -/

theorem textFrom_reads (hrole : role.Reads F) {c : Char} (hc : isBlank c = false)
    (p : List Char) :
    Ensures (State.At F (c :: p) []) (textFrom role c)
      (Onward F p.length fun r j => ∀ t ∈ r, t.Within F.cover p.length j) := by
  refine .ite ?_ fun _ => .ite ?_ fun _ => .ite ?_ fun _ => ?_
  · rintro rfl
    exact (doubleQuotedText_reads hrole p).mapped fun t j ht => by simpa using ht
  · rintro rfl
    exact (singleQuotedText_reads p).mapped fun t j ht => by simpa using ht
  · rintro rfl
    exact (blockText_reads p).mapped fun t j ht => by simpa using ht
  · exact .putBack (ne_newline_of_visible hc) (unquotedText_reads hrole p)

theorem text_reads (hrole : role.Reads F) : Reads F (Text.Within F.cover) (text role) := by
  intro p
  refine .peekOnLine (.done (Nat.le_refl _) (by simp)) fun b c hc => .accept ?_
  rw [List.append_nil]
  refine (textFrom_reads hrole hc (b ++ p)).weaken fun r s hs => ?_
  exact hs.mono (by simp) fun j _ ht t htr => (ht t htr).mono (by simp) (Nat.le_refl j)

/-- The segments gathered lie in order between `n` and `i`. -/
def PathWithin (F : Frame π) (n : Nat) (segments : List (Text (Span π))) (i : Nat) : Prop :=
  InOrder (Text.Within F.cover) segments.reverse n i

theorem pathSegment_reads {segments : List (Text (Span π))} {p : List Char}
    (hsegments : PathWithin F n segments p.length) :
    Ensures (State.At F p []) (pathSegment segments)
      (Steps F p.length (PathWithin F n) (PathWithin F n)) := by
  refine .peekOnLine (Steps.stop (Nat.le_refl _) hsegments) fun b c _ => .retreat ?_
  refine .ite (fun _ => Steps.stop (Nat.le_refl _) hsegments) fun _ => ?_
  refine .call (text_reads Role.key_reads p) fun r q hq hr => ?_
  cases r with
  | none => exact Steps.stop hq (InOrder.mono hsegments hq)
  | some segment =>
    have hmore : PathWithin F n (segment :: segments) q.length :=
      InOrder.snoc hsegments fun m hm => (hr segment rfl).mono hm (Nat.le_refl _)
    refine .peekOnLine (Steps.stop hq hmore) fun b c _ => .ite (fun _ => ?_) fun _ => ?_
    · refine .accept (Steps.again ?_ (InOrder.mono hmore ?_))
      · simp
        omega
      · simp
        omega
    · exact .retreat (Steps.stop hq hmore)

/-- A key path lies between its first segment and where reading has come. -/
theorem path_reads : Reads F (KeyPath.Within F.cover) path := by
  intro p
  refine .here (.call (repeating_ensures (I := PathWithin F p.length)
    (fun _ _ h => pathSegment_reads h) (Nat.le_refl _)) fun segments q hq h => ?_)
  refine .ite (fun _ => .done hq (by simp)) fun _ => .here (.done hq fun x hx => ?_)
  obtain rfl := Option.some.inj hx
  refine ⟨p.length, q.length, Nat.le_refl _, hq, Nat.le_refl _, rfl, ?_⟩
  rw [Text.allInOrder_iff]
  exact h

theorem substitutionEnd_reads (start : π) (p : List Char) :
    Ensures (State.At F p []) (substitutionEnd start) (Onward F p.length fun _ _ => True) := by
  refine .peekVisible ?_ fun b c _ => .ite (fun _ => ?_) fun _ => .retreat ?_
  · exact .ending .reportToReach_stays (Nat.le_refl _) trivial
  · exact .ending .accept_moves (by simp; omega) trivial
  · exact .ending .reportToHere_stays (Nat.le_refl _) trivial

theorem substitutionFrom_reads (spread : Bool) {n : Nat} {p : List Char} (hn : n ≤ p.length) :
    Ensures (State.At F p []) (substitutionFrom (F.mark n) spread)
      (Onward F p.length fun r j => ∀ s ∈ r, s.Within F.cover n j) := by
  refine .peekOnLine (.done (Nat.le_refl _) (by simp)) fun b c _ => .ite (fun _ => ?_) fun _ => ?_
  · exact .retreat (.reportToReach (.done (Nat.le_refl _) (by simp)))
  refine .accept (.call (path_reads _) fun path q hq hpath => ?_)
  refine .call (substitutionEnd_reads _ q) fun _ q' hq' _ => .here (.done ?_ fun s hs => ?_)
  · simp at hq
    omega
  obtain rfl := Option.some.inj hs
  simp at hq
  refine ⟨n, q'.length, Nat.le_refl _, by omega, Nat.le_refl _, rfl, ?_⟩
  rw [Text.allInOrder_iff]
  cases path with
  | none => exact Nat.le_trans (by omega) hq'
  | some path =>
    obtain ⟨i, j, hi, -, hj, -, hin⟩ := hpath path rfl
    rw [Text.allInOrder_iff] at hin
    have hlo : n ≤ i := by
      simp at hi
      omega
    exact (hin.mono (by omega)).mono_lo hlo fun t k ht => ht.mono hlo (Nat.le_refl k)

/-- A substitution lies from its dollar sign to where reading has come. -/
theorem substitution_reads (p : List Char) :
    Ensures (State.At F ('$' :: p) []) (substitution false)
      (Onward F (p.length + 1) fun r j => ∀ s ∈ r, s.Within F.cover p.length j) :=
  .placeOf (by decide) (substitutionFrom_reads false (by simp))

/-- A substitution that spreads lies from its three points to where reading has come. -/
theorem spreadSubstitution_reads (p : List Char) :
    Ensures (State.At F ('$' :: '.' :: '.' :: '.' :: p) []) (substitution true)
      (Onward F (p.length + 1) fun r j => ∀ s ∈ r, s.Within F.cover p.length j) := by
  refine .placeOf (by decide) (.beforeAll (b := ['$']) (p := p) rfl rfl (by simp) ?_)
  refine (substitutionFrom_reads true ?_).weaken fun r s hs => hs.mono (by simp) fun _ _ h => h
  simp
  omega

/-- The role of a text that stands in a value. -/
theorem Role.value_reads : Role.Reads F (.value (substitution false)) :=
  substitution_reads

theorem valueText_reads : Reads F (Text.Within F.cover) valueText :=
  text_reads Role.value_reads

end Diagram.Grammar
