import Diagram.Proofs.Ahead.Node
import Diagram.Proofs.Document.Basic

/-!
Texts and paths in their canonical form are read as what they stand for. Each lemma is about the
text in front of whatever follows it, so that the lemmas for larger parts can be put together from
those for smaller ones.
-/
namespace Diagram.Grammar

open Document (escape quoted quoted_append)

variable {π : Type} {F : Frame π} {p u : List Char}

/-! ## Quoted text -/

/-- No substitution is read behind a dollar sign that is not escaped. -/
def Role.Substitutes (role : Role π) (substitutes : Bool) : Prop :=
  substitutes = true ∨ role.substitution? = pure none

/-- The character `c` has been read, which goes to the end of the literal. -/
def Pushes (c : Char) (g : Gathered π) (next : Next (Gathered π)) : Prop :=
  ∃ g', next = .again g' ∧ g'.pieces = g.pieces ∧ g'.value = c :: g.value

variable {role : Role π} {substitutes : Bool} {start : π} {g : Gathered π}

/-- Where no substitution starts, a quote ends the text and a backslash starts an escape. -/
theorem doubleQuotedBehind_eq {c : Char} (hdollar : c = '$' → role.substitution? = pure none) :
    doubleQuotedBehind role start g c =
      if c = '"' then pure (.stop g)
      else if c = '\\' then doubleQuotedEscape start g
      else pure (.again (g.push c)) := by
  by_cases h : c = '$'
  · rw [doubleQuotedBehind, if_pos h, hdollar h, pure_bind]
  · rw [doubleQuotedBehind, if_neg h, pure_bind]

/-- An escape stands for the character that has the written form `e` behind the backslash. -/
theorem doubleQuotedCharacter_escape {c e : Char} (he : e ≠ '\n') (hc : escapeValue e = c) :
    Ahead F p [] ('\\' :: e :: u) (doubleQuotedCharacter role start g)
      (Arrives F u (Pushes c g)) := by
  refine .peek (.no (by decide) (.accept ?_))
  rw [doubleQuotedBehind_eq fun h => absurd h (by decide)]
  refine .no (by decide) (.yes rfl (.read (.done ?_)))
  refine ⟨g.pushEscape e, ?_, rfl, ?_⟩
  · rw [if_neg he]
  · rw [Gathered.pushEscape, hc]

theorem doubleQuotedCharacter_plain {c : Char} (hline : c ≠ '\n') (hquote : c ≠ '"')
    (hescape : c ≠ '\\') (hdollar : c = '$' → role.substitution? = pure none) :
    Ahead F p [] (c :: u) (doubleQuotedCharacter role start g) (Arrives F u (Pushes c g)) := by
  refine .peek (.no hline (.accept ?_))
  rw [doubleQuotedBehind_eq hdollar]
  exact .no hquote (.no hescape (.done ⟨g.push c, rfl, rfl, rfl⟩))

/-- Every character is read back from its written form. -/
theorem doubleQuotedCharacter_written (hrole : role.Substitutes substitutes) (c : Char) :
    Ahead F p [] (escape substitutes c ++ u) (doubleQuotedCharacter role start g)
      (Arrives F u (Pushes c g)) := by
  unfold escape
  by_cases hline : c = '\n'
  · subst hline
    exact doubleQuotedCharacter_escape (by decide) rfl
  rw [if_neg hline]
  by_cases hescaped : (c = '"' || c = '\\' || (substitutes && c = '$')) = true
  · rw [if_pos hescaped]
    apply doubleQuotedCharacter_escape hline
    simp only [Bool.or_eq_true, decide_eq_true_eq, Bool.and_eq_true] at hescaped
    rcases hescaped with (rfl | rfl) | ⟨-, rfl⟩
    · rfl
    · rfl
    · rfl
  · rw [if_neg hescaped]
    simp only [Bool.or_eq_true, decide_eq_true_eq, Bool.and_eq_true, not_or, not_and] at hescaped
    obtain ⟨⟨hquote, hbackslash⟩, hdollar⟩ := hescaped
    refine doubleQuotedCharacter_plain hline hquote hbackslash fun h => ?_
    exact hrole.resolve_left fun hsubstitutes => hdollar hsubstitutes h

theorem doubleQuotedCharacter_quote :
    Ahead F p [] ('"' :: u) (doubleQuotedCharacter role start g)
      (Arrives F u fun next => ∃ g', next = .stop g' ∧ g' = g) := by
  refine .peek (.no (by decide) (.accept ?_))
  rw [doubleQuotedBehind_eq fun h => absurd h (by decide)]
  exact .yes rfl (.done ⟨g, rfl, rfl⟩)

/-- The written forms of characters are read back up to the closing quote. -/
theorem doubleQuotedCharacters_written (hrole : role.Substitutes substitutes) (cs : List Char) :
    Ahead F p [] (cs.flatMap (escape substitutes) ++ '"' :: u)
      (repeating (doubleQuotedCharacter role start) g)
      (Arrives F u fun g' => g'.pieces = g.pieces ∧ g'.value = cs.reverse ++ g.value) := by
  -- an escaped character is read by one step as well, so that there is a step for every character
  induction cs generalizing g p with
  | nil =>
    apply Ahead.mono (.stop doubleQuotedCharacter_quote)
    intro g' h
    rw [h]
    exact ⟨rfl, rfl⟩
  | cons c cs ih =>
    rw [List.flatMap_cons, List.append_assoc]
    refine .again (doubleQuotedCharacter_written hrole c) ?_ fun g₁ q h₁ => ?_
    · unfold escape
      split
      · simp only [List.length_append, List.length_cons, List.length_nil]
        omega
      split
      · simp only [List.length_append, List.length_cons, List.length_nil]
        omega
      · simp
    · refine .mono ih fun g' h => ?_
      obtain ⟨hpieces, hvalue⟩ := h
      rw [hpieces, hvalue, h₁.1, h₁.2]
      simp

/-- A text stands for `content` and for nothing else. -/
def Spells (content : String) (t : Text (Span π)) : Prop :=
  t.plain? = some content ∧ ∃ range pieces, t = .doubleQuoted range pieces

theorem Gathered.spells {g : Gathered π} {cs : List Char} (range : Span π) (hpieces : g.pieces = [])
    (hvalue : g.value = cs.reverse) : Spells (String.ofList cs) (.doubleQuoted range g.finish) := by
  refine ⟨?_, range, _, rfl⟩
  unfold Gathered.finish Gathered.flush
  cases cs with
  | nil =>
    simp [hvalue, hpieces, Text.plain?, Text.pieces?, Text.content, firstLiteral]
  | cons c cs =>
    simp [hvalue, hpieces, Text.plain?, Text.pieces?, Text.content, firstLiteral]

theorem doubleQuotedText_written (hrole : role.Substitutes substitutes) (content : String) :
    Ahead F ('"' :: p) [] (content.toList.flatMap (escape substitutes) ++ '"' :: u)
      (doubleQuotedText role) (Arrives F u (Spells content)) := by
  refine .placeOf (by decide) (.call (doubleQuotedCharacters_written hrole _) fun g q h => ?_)
  refine .here (.done ?_)
  have hspells := Gathered.spells ⟨F.mark p.length, F.mark q.length⟩ h.1
    (h.2.trans (List.append_nil _))
  rwa [String.ofList_toList] at hspells

/-- A quoted text is read back behind blanks. -/
theorem text_written (hrole : role.Substitutes substitutes) (content : String) {b : List Char}
    (hb : LineBlanks b) :
    Ahead F p [] (b ++ (quoted substitutes content ++ u)) (text role)
      (Arrives F u fun r => ∃ t, r = some t ∧ Spells content t) := by
  rw [quoted_append]
  refine .peekOnLine hb (by decide) (.accept (.yes rfl ?_))
  refine .call (doubleQuotedText_written hrole content) fun t q h => ?_
  exact .done ⟨t, rfl, h⟩

/-! ## Paths -/

/-- A name in quotes is read back as a segment. -/
theorem segment_written (name : String) :
    SegmentFound F u (quoted false name) (Spells (π := π) name) where
  starts := ⟨'"', _, rfl, by decide, by decide⟩
  reads _ _ _ := text_written (b := []) (.inr rfl) name (by simp)

theorem plain_of_spells {names : List String} {ts : List (Text (Span π))}
    (h : List.Forall₂ Spells names ts) : ts.mapM Text.plain? = some names := by
  induction h with
  | nil => rfl
  | cons hname _ ih => simp [hname.1, ih]

/-- A path is read back. -/
theorem path_written (path : Document.Path) (hu : FollowsPath u) :
    Ahead F p [] (path.render ++ u) Grammar.path
      (Arrives F u fun r => ∃ k, r = some k ∧ k.document? = some path) := by
  apply Ahead.mono (path_found path.first path.rest hu fun name _ => segment_written name)
  intro r h
  obtain ⟨k, rfl, hk⟩ := h
  exact ⟨k, rfl, by simp [KeyPath.document?, plain_of_spells hk]⟩

end Diagram.Grammar
