import Diagram.Proofs.Clean.Basic
import Diagram.Proofs.Sound.Text

/-!
What an unquoted text is spelled with where nothing is wrong. Its characters stand for themselves,
or they follow a backslash, or they make up a substitution; `UnquotedKeeps` says how each of these
keeps a relation between what is gathered and what has been consumed.
-/
namespace Diagram.Grammar

variable {π : Type} {F : Frame π} {p : List Char}

/-- At the index `n` stands the character `c`, which does not end an unquoted text: neither for its
own sake nor because a connection starts with it. -/
structure GoesOn (F : Frame π) (role : Role π) (n : Nat) (c : Char) : Prop where
  here : F.text[n]? = some c
  inside : endsUnquoted role c = false
  edge : role.isKey = true → c = '-' ∨ c = '*' → ∀ x ∈ F.text[n + 1]?, startsEdge c x = false

/-- A relation between the text gathered and the characters consumed behind `p`, latest first, that
every part of an unquoted text keeps. Behind a dollar sign, `S` holds of what a substitution
consumes. -/
structure UnquotedKeeps (F : Frame π) (p : List Char) (role : Role π) (S : List Char → Prop)
    (J : Gathered π → List Char → Prop) : Prop where
  reads : role.Reads F
  substitution : ∀ q, Ensures (State.At F ('$' :: q) []) role.substitution?
    (Consumes F ('$' :: q) fun r w => (r = none → w = []) ∧ (r.isSome = true → S w))
  empty : J .empty []
  push : ∀ g u c, GoesOn F role (u ++ p).length c → c ≠ '\\' → J g u → J (g.push c) (c :: u)
  escape : ∀ g u c, F.text[(u ++ p).length]? = some '\\' → J g u →
    J (g.pushEscape c) (c :: '\\' :: u)
  /-- A backslash at the end of a line is consumed with the blanks that
  the next line starts with. -/
  continuation : ∀ g u b, F.text[(u ++ p).length]? = some '\\' → LineBlanks b → J g u →
    J g (b ++ '\n' :: '\\' :: u)
  substituted : ∀ g u r w, S w → J g u → J (g.pushSubstitution r) (w ++ '$' :: u)

section

variable {role : Role π} {S : List Char → Prop} {J : Gathered π → List Char → Prop}
  {unquoted : Unquoted π} {u : List Char}

/-- The text gathered fits what has been consumed. -/
def Unquoted.Fits (J : Gathered π → List Char → Prop) (unquoted : Unquoted π) (u : List Char) :
    Prop :=
  J unquoted.text u

theorem unquotedEscape_consumes (h : UnquotedKeeps F p role S J) (hu : unquoted.Fits J u) :
    Ensures (State.At F ('\\' :: (u ++ p)) []) (unquotedEscape unquoted)
      (Consumes F p (Next.Fits (Unquoted.Fits J) (Unquoted.Fits J))) := by
  refine .known_of_consumed fun hbackslash => ?_
  refine .read (.placeOf (by decide) .unclean_toReach) fun c => .ite (fun hc => ?_) fun _ => ?_
  · subst hc
    refine .peekOverLine ?_ fun b x hb hx => .accept (.putBack (ne_newline_of_visible hx) ?_)
    · exact .consumed ('\n' :: '\\' :: u) rfl
        (h.continuation unquoted.text u [] hbackslash (by simp [LineBlanks]) hu)
    · exact .consumed (b ++ '\n' :: '\\' :: u) (by simp)
        (h.continuation unquoted.text u b hbackslash hb hu)
  · exact .here (.consumed (c :: '\\' :: u) rfl (h.escape unquoted.text u c hbackslash hu))

theorem unquotedBehind_consumes (h : UnquotedKeeps F p role S J) (hu : unquoted.Fits J u) {c : Char}
    (hc : GoesOn F role (u ++ p).length c) :
    Ensures (State.At F (c :: (u ++ p)) []) (unquotedBehind role unquoted c)
      (Consumes F p (Next.Fits (Unquoted.Fits J) (Unquoted.Fits J))) := by
  refine .here ?_
  by_cases hdollar : c = '$'
  · subst hdollar
    refine .callClean (h.substitution (u ++ p)) fun r w hw => ?_
    cases r with
    | none =>
      rw [hw.1 rfl]
      exact .consumed ('$' :: u) rfl (h.push unquoted.text u '$' hc (by decide) hu)
    | some r =>
      exact .here (.consumed (w ++ '$' :: u) (by simp)
        (h.substituted unquoted.text u r w (hw.2 rfl) hu))
  · rw [if_neg hdollar]
    by_cases hescape : c = '\\'
    · subst hescape
      exact unquotedEscape_consumes h hu
    · refine .ite (fun h => absurd h hescape) fun _ => ?_
      exact .consumed (c :: u) rfl (h.push unquoted.text u c hc hescape hu)

theorem groupEnd_consumes (h : UnquotedKeeps F p role S J) (hu : unquoted.Fits J u) :
    Ensures (State.At F (u ++ p) [')']) (groupEnd unquoted ')')
      (Consumes F p (Next.Fits (Unquoted.Fits J) (Unquoted.Fits J))) := by
  refine .known (l := []) fun hc => ?_
  have hclose : GoesOn F role (u ++ p).length ')' := ⟨hc, by simp [endsUnquoted], by simp⟩
  refine .peekOnLine (.consumed u rfl hu) fun b x _ => .retreat (.ite (fun _ => ?_) fun _ => ?_)
  · exact .consumed u rfl hu
  · exact .peekKnown hc (.accept (.here (.consumed (')' :: u) rfl
      (h.push unquoted.text u ')' hclose (by decide) hu))))

theorem unquotedConnector_consumes (h : UnquotedKeeps F p role S J)
    (hu : unquoted.Fits J u) {c : Char} (hc : endsUnquoted role c = false) :
    Ensures (State.At F (u ++ p) [c]) (unquotedConnector role unquoted c)
      (Consumes F p (Next.Fits (Unquoted.Fits J) (Unquoted.Fits J))) := by
  refine .known (l := []) fun hknown => .peek (.consumed u rfl hu) fun x => ?_
  refine .knownBehind fun hnext => .retreat (.ite (fun _ => ?_) fun hstarts => ?_)
  · exact .consumed u rfl hu
  · have hgoesOn : GoesOn F role (u ++ p).length c := by
      refine ⟨hknown, hc, fun _ _ y hy => ?_⟩
      obtain rfl := Option.some.inj (hnext.symm.trans hy)
      exact Bool.eq_false_iff.mpr hstarts
    exact .peekKnown hknown (.accept (unquotedBehind_consumes h hu hgoesOn))

theorem unquotedCharacter_consumes (h : UnquotedKeeps F p role S J) (hu : unquoted.Fits J u) :
    Ensures (State.At F (u ++ p) []) (unquotedCharacter role unquoted)
      (Consumes F p (Next.Fits (Unquoted.Fits J) (Unquoted.Fits J))) := by
  refine .peek (.consumed u rfl hu) fun c => .inGroup (.known (l := []) fun hknown => ?_)
  refine .ite (fun hclose => ?_) fun _ => .ite (fun _ => ?_) fun hc => .ite (fun _ => ?_)
    fun hconnector => ?_
  · obtain rfl : c = ')' := by simp at hclose; exact hclose.2
    exact groupEnd_consumes h hu
  · exact .retreat (.consumed u rfl hu)
  · exact unquotedConnector_consumes h hu (by simpa using hc)
  · have hgoesOn : GoesOn F role (u ++ p).length c := by
      refine ⟨hknown, by simpa using hc, fun hkey hedge => absurd ?_ hconnector⟩
      simpa [hkey] using hedge
    exact .accept (unquotedBehind_consumes h hu hgoesOn)

/-- **Unquoted text**: what has been consumed fits what was gathered, of which nothing but blanks is
left out where there is no text. -/
theorem unquotedText_consumes (h : UnquotedKeeps F p role S J) :
    Ensures (State.At F p []) (unquotedText role)
      (Consumes F p fun r u => ∃ g : Gathered π, J g u ∧ (r = none → g.trimEnd.finish = [])) := by
  have hempty : Unquoted.Within F p.length ⟨.empty, F.mark p.length⟩ p.length :=
    ⟨p.length, Nat.le_refl _, Nat.le_refl _, rfl, Nat.le_refl _⟩
  refine .here (.callClean (repeating_consumes (M := Unquoted.Within F p.length)
    (I := Unquoted.Fits J) (R := Unquoted.Fits J) (fun _ _ hu => unquotedCharacter_reads h.reads hu)
    (fun _ _ hu => unquotedCharacter_consumes h hu) hempty h.empty) fun unquoted u hu => ?_)
  refine .ite (fun hpieces => ?_) fun _ => ?_
  · exact .consumed u rfl ⟨unquoted.text, hu, fun _ => by simpa using hpieces⟩
  · exact .consumed u rfl ⟨unquoted.text, hu, fun hnone => by cases hnone⟩

end

end Diagram.Grammar
