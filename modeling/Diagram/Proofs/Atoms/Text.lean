import Diagram.Proofs.Lasting
import Diagram.Proofs.Sound.Text

/-!
What can be added to a text while it is read: a character that stands for itself, an escape, nothing
at the end of a line that is continued, or a substitution. What all of these keep holds of every
text, wherever and for whatever reason it ends.
-/
namespace Diagram.Grammar

variable {π : Type} {F : Frame π} {S : Substitution (Span π) → Prop} {role : Role π}

/-! ## Substitutions in a text -/

/-- A substitution with `S` has been found, or nothing, and then nothing has been read. -/
def Inserts (F : Frame π) (S : Substitution (Span π) → Prop) (p : List Char) :
    Option (Substitution (Span π)) → State π → Prop
  | none => State.At F p []
  | some x => fun s => S x ∧ ∃ q, p.length ≤ q.length ∧ s.At F q []

/-- The substitutions that are read in a text have `S`. -/
def Role.Inserts (F : Frame π) (S : Substitution (Span π) → Prop) (role : Role π) : Prop :=
  ∀ p, Ensures (State.At F ('$' :: p) []) role.substitution? (Grammar.Inserts F S ('$' :: p))

/-- No substitutions are read in a key. -/
theorem Role.key_inserts : (Role.key : Role π).Inserts F S :=
  fun _ => .pure fun _ hs => hs

theorem Ensures.insertion {β : Type} {c : Char} {p : List Char}
    {f : Option (Substitution (Span π)) → Grammar π β} {Q : β → State π → Prop}
    (hrole : role.Inserts F S)
    (hsome : ∀ x q, c = '$' → S x → p.length < q.length → q.length ≤ F.text.length →
      Ensures (State.At F q []) (f (some x)) Q)
    (hnone : Ensures (State.At F (c :: p) []) (f none) Q) :
    Ensures (State.At F (c :: p) [])
      ((if c = '$' then role.substitution? else Pure.pure none) >>= f) Q := by
  by_cases hdollar : c = '$'
  · subst hdollar
    rw [if_pos rfl]
    refine .bind (hrole p) fun r => ?_
    cases r with
    | none => exact hnone
    | some x => exact fun s ⟨hx, q, hq, hs⟩ => hsome x q rfl hx hq hs.reader.length_le s hs
  · rw [if_neg hdollar]
    exact hnone

/-! ## What is gathered -/

/-- The literal that is gathered becomes the latest piece. -/
theorem Gathered.flush_pieces {g : Gathered π} (h : g.value.isEmpty = false) :
    g.flush.pieces =
      .literal (String.ofList g.value.reverse) (String.ofList g.raw.reverse) :: g.pieces := by
  simp [Gathered.flush, h]

/-- A literal of a text is one of the pieces gathered, or that at the end. -/
theorem Gathered.literal_of_mem_finish {g : Gathered π} {value raw : String}
    (h : .literal value raw ∈ g.finish) : .literal value raw ∈ g.pieces ∨
      value.toList = g.value.reverse ∧ raw.toList = g.raw.reverse := by
  rw [Gathered.finish, List.mem_reverse] at h
  cases hvalue : g.value.isEmpty with
  | true =>
    rw [Gathered.flush, if_pos hvalue] at h
    exact .inl h
  | false =>
    rw [Gathered.flush_pieces hvalue] at h
    rcases List.mem_cons.mp h with heq | h
    · obtain ⟨rfl, rfl⟩ := Piece.literal.inj heq
      exact .inr ⟨String.toList_ofList, String.toList_ofList⟩
    · exact .inl h

/-- The last piece of a text is the latest piece gathered, or the literal at the end. -/
theorem Gathered.pieces_of_finish {g : Gathered π} {front : List (Piece (Span π))}
    {last : Piece (Span π)} (h : g.finish = front ++ [last]) :
    g.pieces = last :: front.reverse ∨ g.pieces = front.reverse ∧
      last = .literal (String.ofList g.value.reverse) (String.ofList g.raw.reverse) := by
  have hpieces : g.flush.pieces = last :: front.reverse := by
    rw [List.reverse_eq_iff.mp h, List.reverse_append, List.reverse_singleton,
      List.singleton_append]
  cases hvalue : g.value.isEmpty with
  | true =>
    rw [Gathered.flush, if_pos hvalue] at hpieces
    exact .inl hpieces
  | false =>
    rw [Gathered.flush_pieces hvalue] at hpieces
    obtain ⟨hlast, hfront⟩ := List.cons.inj hpieces
    exact .inr ⟨hfront, hlast.symm⟩

/-! ## Quoted text -/

/-- What is kept by everything that can be added to a text. -/
structure Gathered.Kept (S : Substitution (Span π) → Prop) (J : Gathered π → Prop) : Prop where
  empty : J .empty
  push : ∀ {g c}, J g → c ≠ '\\' → J (g.push c)
  escape : ∀ {g c}, J g → J (g.pushEscape c)
  substitution : ∀ {g x}, J g → S x → J (g.pushSubstitution x)

theorem Gathered.Kept.trivial : Gathered.Kept S fun _ : Gathered π => True :=
  ⟨True.intro, fun _ _ => True.intro, fun _ => True.intro, fun _ _ => True.intro⟩

section

variable {J : Gathered π → Prop} (hJ : Gathered.Kept S J)

include hJ

theorem doubleQuotedEscape_keeps {start : π} {g : Gathered π} (hg : J g) (p : List Char) :
    Ensures (State.At F ('\\' :: p) []) (doubleQuotedEscape start g)
      (Steps F p.length (fun g _ => J g) fun g _ => J g) := by
  refine .read (.placeOf (by decide) (.reportToReach (.reportToReach (Steps.stop (by simp) hg))))
    fun c => Steps.again (by simp only [List.length_cons]; omega) ?_
  split
  · exact hg
  · exact hJ.escape hg

theorem doubleQuotedCharacter_keeps (hrole : role.Inserts F S) {start : π} {g : Gathered π}
    (hg : J g) (p : List Char) :
    Ensures (State.At F p []) (doubleQuotedCharacter role start g)
      (Steps F p.length (fun g _ => J g) fun g _ => J g) := by
  refine .peek (.reportToReach (Steps.stop (Nat.le_refl _) hg)) fun c =>
    .ite (fun _ => .retreat (.reportToHere (Steps.stop (Nat.le_refl _) hg))) fun _ => .accept ?_
  refine .insertion hrole (fun x q _ hx hq _ => Steps.again hq (hJ.substitution hg hx)) ?_
  refine .ite (fun _ => Steps.stop (by simp) hg) fun _ => .ite ?_ fun hescape => ?_
  · rintro rfl
    exact doubleQuotedEscape_keeps hJ hg p
  · exact Steps.again (by simp) (hJ.push hg hescape)

/-- What is kept holds of all that is gathered in a double quoted text. -/
theorem doubleQuotedText_keeps (hrole : role.Inserts F S) (p : List Char) :
    Ensures (State.At F ('"' :: p) []) (doubleQuotedText role) fun t _ =>
      ∃ g range, J g ∧ t = .doubleQuoted range g.finish :=
  .placeOf (by decide) (.call (repeating_ensures
    (fun _ p hg => doubleQuotedCharacter_keeps hJ hrole hg p) hJ.empty) fun g _ _ hg =>
      .here (.pure fun _ _ => ⟨g, _, hg, rfl⟩))

end

/-! ## Unquoted text -/

/-- What is kept by everything that can be added to an unquoted text which has been read up to an
index. The text ends behind the last thing added that is no blank. -/
structure Unquoted.Kept (F : Frame π) (S : Substitution (Span π) → Prop)
    (J : Unquoted π → Nat → Prop) : Prop where
  push : ∀ {u i c}, J u i → F.text[i]? = some c → c ≠ '\\' →
    J ⟨u.text.push c, if isBlank c then u.stop else F.mark (i + 1)⟩ (i + 1)
  escape : ∀ {u i c}, J u i → F.text[i]? = some '\\' → i + 2 ≤ F.text.length →
    J ⟨u.text.pushEscape c, F.mark (i + 2)⟩ (i + 2)
  elision : ∀ {u i j}, J u i → F.text[i]? = some '\\' → i < j →
    J ⟨u.text, F.mark (i + 1)⟩ j
  substitution : ∀ {u i j x}, J u i → i < j → j ≤ F.text.length → S x →
    J ⟨u.text.pushSubstitution x, F.mark j⟩ j

/-- What is kept in every text is kept in an unquoted one. -/
theorem Gathered.Kept.unquoted {J : Gathered π → Prop} (hJ : Gathered.Kept S J) :
    Unquoted.Kept F S fun u _ => J u.text where
  push h _ hc := hJ.push h hc
  escape h _ _ := hJ.escape h
  elision h _ _ := h
  substitution h _ _ hx := hJ.substitution h hx

section

variable {J : Unquoted π → Nat → Prop} (hJ : Unquoted.Kept F S J)

include hJ

theorem unquotedEscape_keeps {u : Unquoted π} {p : List Char} (hu : J u p.length) :
    Ensures (State.At F ('\\' :: p) []) (unquotedEscape ⟨u.text, F.mark (p.length + 1)⟩)
      (Steps F p.length J J) := by
  refine .known_of_consumed fun hslash => .read ?_ fun c => .ite (fun _ => ?_) fun _ => .here ?_
  · exact .placeOf (by decide)
      (.reportToReach (Steps.stop (by simp) (hJ.elision hu hslash (by simp))))
  · have hlt : p.length < (c :: '\\' :: p).length := by
      simp only [List.length_cons]
      omega
    refine .peekOnLine (Steps.stop (Nat.le_of_lt hlt) (hJ.elision hu hslash hlt)) fun b x hx =>
      .accept (.putBack (ne_newline_of_visible hx) ?_)
    have hbehind : p.length < (b ++ [] ++ c :: '\\' :: p).length := by
      simp
      omega
    exact Steps.again hbehind (hJ.elision hu hslash hbehind)
  · refine fun s hs => Steps.again (by simp only [List.length_cons]; omega) ?_ s hs
    exact hJ.escape (u := u) hu hslash hs.reader.length_le

theorem unquotedBehind_keeps (hrole : role.Inserts F S) {u : Unquoted π} {p : List Char}
    {c : Char} (hu : J u p.length) :
    Ensures (State.At F (c :: p) []) (unquotedBehind role u c) (Steps F p.length J J) := by
  refine .known_of_consumed fun hc => .here (.insertion hrole (fun x q _ hx hq hlength => .here ?_)
    (.ite ?_ fun hescape => ?_))
  · exact Steps.again hq (hJ.substitution hu hq hlength hx)
  · rintro rfl
    exact unquotedEscape_keeps hJ hu
  · exact Steps.again (by simp) (hJ.push hu hc hescape)

theorem groupEnd_keeps {u : Unquoted π} {p : List Char} (hu : J u p.length) :
    Ensures (State.At F p [')']) (groupEnd u ')') (Steps F p.length J J) := by
  refine .known (l := []) fun hc => .peekOnLine (Steps.stop (Nat.le_refl _) hu) fun b x _ =>
    .retreat (.ite (fun _ => Steps.stop (Nat.le_refl _) hu) fun _ => ?_)
  refine .peekKnown hc (.accept (.here (Steps.again (by simp) ?_)))
  exact hJ.push hu hc (by decide)

theorem unquotedConnector_keeps (hrole : role.Inserts F S) {u : Unquoted π} {p : List Char}
    {c : Char} (hu : J u p.length) :
    Ensures (State.At F p [c]) (unquotedConnector role u c) (Steps F p.length J J) := by
  refine .known (l := []) fun hc => .peek (Steps.stop (Nat.le_refl _) hu) fun x =>
    .retreat (.ite (fun _ => Steps.stop (Nat.le_refl _) hu) fun _ => ?_)
  exact .peekKnown hc (.accept (unquotedBehind_keeps hJ hrole hu))

theorem unquotedCharacter_keeps (hrole : role.Inserts F S) {u : Unquoted π} {p : List Char}
    (hu : J u p.length) :
    Ensures (State.At F p []) (unquotedCharacter role u) (Steps F p.length J J) := by
  refine .peek (Steps.stop (Nat.le_refl _) hu) fun c => .inGroup (.ite (fun hclose => ?_) fun _ =>
    .ite (fun _ => .retreat (Steps.stop (Nat.le_refl _) hu)) fun _ =>
      .ite (fun _ => ?_) fun _ => ?_)
  · obtain rfl : c = ')' := by simp at hclose; exact hclose.2
    exact groupEnd_keeps hJ hu
  · exact unquotedConnector_keeps hJ hrole hu
  · exact .accept (unquotedBehind_keeps hJ hrole hu)

/-- What is kept holds of all that is gathered in an unquoted text. -/
theorem unquotedText_keeps (hrole : role.Inserts F S) {p : List Char}
    (hempty : J ⟨.empty, F.mark p.length⟩ p.length) :
    Ensures (State.At F p []) (unquotedText role) fun r _ => ∀ t ∈ r, ∃ u i, J u i ∧
      u.text.trimEnd.finish ≠ [] ∧
        t = .unquoted ⟨F.mark p.length, u.stop⟩ u.text.trimEnd.finish := by
  refine .here (.call (repeating_ensures (fun _ _ hu => unquotedCharacter_keeps hJ hrole hu) hempty)
    fun u q _ hu => .ite (fun _ => .pure fun _ _ => by simp) fun hne => .pure fun _ _ t ht => ?_)
  exact ⟨u, q.length, hu, by simpa using hne, (Option.some.inj ht).symm⟩

end

/-! ## Texts -/

/-- A text in any of its forms; an unquoted one starts with a character that is no blank. -/
theorem text_ensures {T : Text (Span π) → Prop}
    (hunquoted : ∀ p c, F.text[p.length]? = some c → isBlank c = false →
      Ensures (State.At F p []) (unquotedText role) fun r _ => ∀ t ∈ r, T t)
    (hdouble : ∀ p, Ensures (State.At F ('"' :: p) []) (doubleQuotedText role) fun t _ => T t)
    (hsingle : ∀ range value, T (.singleQuoted range value))
    (hblock : ∀ range quote tag value, T (.block range quote tag value)) (p : List Char) :
    Ensures (State.At F p []) (text role) fun r _ => ∀ t ∈ r, T t := by
  have hform : ∀ {P : State π → Prop} {g : Grammar π (Text (Span π))},
      Ensures P g (fun t _ => T t) →
        Ensures P (g >>= fun t => pure (some t)) fun r _ => ∀ t ∈ r, T t :=
    fun hg => .bind hg fun t => .pure fun _ ht x hx => Option.some.inj hx ▸ ht
  have hsingleText : Leaves (singleQuotedText : Grammar π _) fun t _ => T t :=
    .skip fun _ => .skip fun _ => .skip fun _ => .pure fun _ => hsingle _ _
  have hblockText : Leaves (blockText : Grammar π _) fun t _ => T t :=
    .skip fun _ => .skip fun _ => .skip fun _ => .skip fun _ => .pure fun _ => hblock _ _ _ _
  refine .peekOnLine (.pure fun _ _ => by simp) fun b c hc => .accept ?_
  rw [List.append_nil]
  refine .ite ?_ fun _ => .ite (fun _ => hform fun s _ => hsingleText s) fun _ =>
    .ite (fun _ => hform fun s _ => hblockText s) fun _ => ?_
  · rintro rfl
    exact hform (hdouble _)
  · exact .known_of_consumed fun hknown =>
      .putBack (ne_newline_of_visible hc) (hunquoted _ c hknown hc)

end Diagram.Grammar
