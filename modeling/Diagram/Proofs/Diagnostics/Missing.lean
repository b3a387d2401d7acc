import Diagram.Proofs.Gap
import Diagram.Proofs.Clean.Basic
import Diagram.Proofs.Sound.Container

/-!
Where a value is missing. Every text but an unquoted one is there from its first character on, and
an unquoted one as soon as there is something in it that is no blank. So no more than a gap is
consumed in search of a value that is missing.
-/
namespace Diagram.Grammar

variable {π : Type} {F : Frame π} {k : Nat} {p : List Char}

/-- A text that is begun at the index `k` and has come to `i` is blank only behind a gap. -/
def Stalls (F : Frame π) (k : Nat) (u : Unquoted π) (i : Nat) : Prop :=
  u.text.Blank → GapTo F.text k i

/-- A text that is begun at the index `k` and ends at `i` is blank only where it is missing. -/
def Misses (F : Frame π) (k : Nat) (u : Unquoted π) (i : Nat) : Prop :=
  u.text.Blank → Missed F.text k i

theorem endsUnquoted_value {s : Grammar π (Option (Substitution (Span π)))} {c : Char}
    (h : endsUnquoted (.value s) c = true) : isBlank c = true ∨ c ∈ textEnds := by
  simp only [endsUnquoted, Role.isKey, Bool.false_and, Bool.or_false, decide_eq_true_eq,
    List.mem_cons, List.not_mem_nil, or_false] at h
  rcases h with rfl | h
  · exact .inl (by decide)
  · exact .inr (by simpa [textEnds] using h)

theorem stopsAt_of_not_onLine {i : Nat} (h : ∀ c, ¬F.OnLine i c) : StopsAt F.text i := by
  intro c hc
  cases hblank : isBlank c with
  | true => exact .inl rfl
  | false =>
    obtain ⟨hi, hget⟩ := List.getElem?_eq_some_iff.mp hc
    have hdrop : F.text.drop i = c :: F.text.drop (i + 1) := by
      rw [List.drop_eq_getElem_cons hi, hget]
    exact absurd ⟨[], _, hdrop, List.forall_mem_nil _, List.not_mem_nil, hblank⟩ (h c)

/-- The end of a continued line is a gap, with the blanks in front of what is next. -/
theorem gap_continued {b : List Char} (hb : ∀ x ∈ b, isBlank x = true) :
    Gap (b ++ ['\n', '\\']).reverse := by
  rw [List.reverse_append]
  exact .escape (c := '\n') (by decide) (.blanks fun x hx => hb x (List.mem_reverse.mp hx))

theorem unquotedEscape_misses {u : Unquoted π} {stop : π} (hu : Stalls F k u p.length)
    (hslash : F.text[p.length]? = some '\\') :
    Ensures (State.At F ('\\' :: p) []) (unquotedEscape ⟨u.text, stop⟩)
      (Steps F p.length (Stalls F k) (Misses F k)) := by
  have hfirst : p.length = k → F.text[k]? = some '\\' := fun h => h ▸ hslash
  cases hdrop : F.text.drop ('\\' :: p).length with
  | nil =>
    -- the text ends behind the backslash
    have hlast : F.text.drop p.length = ['\\'] := by
      obtain ⟨hlt, hget⟩ := List.getElem?_eq_some_iff.mp hslash
      rw [List.drop_eq_getElem_cons hlt, hget]
      exact congrArg (List.cons _) hdrop
    refine .readNothing hdrop (.placeOf (by decide) (.reportToReach (Steps.stop (by simp) ?_)))
    exact fun hblank => .escape (hu hblank) hlast
  | cons c w =>
    refine .readNext hdrop (.ite ?_ fun _ => .here ?_)
    · rintro rfl
      refine .peekLine (fun hline => ?_) fun b x hb hx => .accept (.putBack hx.ne_newline ?_)
      · refine .knownText (u := ['\n', '\\']) (v := []) fun hread => Steps.stop (by simp; omega) ?_
        intro hblank
        have hgap := gap_continued (b := []) (List.forall_mem_nil _)
        rw [List.nil_append, ← hread] at hgap
        exact .gap ((hu hblank).further (by simp; omega) hgap hfirst) (stopsAt_of_not_onLine hline)
      · have hagain : Ensures (State.At F ((b ++ ['\n', '\\']) ++ p) [])
            (pure (.again ⟨u.text, stop⟩))
            (Steps F p.length (Stalls F k) (Misses F k)) := by
          refine .knownText (v := []) fun hread => Steps.again (by simp; omega) ?_
          intro hblank
          exact (hu hblank).further (by simp; omega) (hread ▸ gap_continued hb) hfirst
        rw [List.append_assoc] at hagain
        exact hagain
    · have hadvanced : p.length < ([] ++ ([c, '\\'] ++ p)).length :=
        Nat.lt_add_of_pos_right Nat.two_pos
      refine .knownText (u := [c, '\\']) (v := []) fun hread => Steps.again hadvanced ?_
      intro hblank
      obtain ⟨hescape, hblank⟩ := hblank.of_pushEscape
      exact (hu hblank).further (by simp; omega) (hread ▸ .escape hescape .nil) hfirst

section

variable {c₀ : Char} (hc₀ : F.text[k]? = some c₀) (hvisible : isBlank c₀ = false)

include hc₀ hvisible

theorem unquotedBehind_misses {u : Unquoted π} {c : Char} (hu : Stalls F k u p.length)
    (hc : F.text[p.length]? = some c) :
    Ensures (State.At F (c :: p) []) (unquotedBehind (.value (substitution false)) u c)
      (Steps F p.length (Stalls F k) (Misses F k)) := by
  refine .here ?_
  by_cases hdollar : c = '$'
  · -- whatever stands behind a dollar sign, the sign or a substitution is gathered
    subst hdollar
    refine .call (substitution_reads p) fun r q hq _ => ?_
    cases r with
    | some x =>
      have hgathered := u.text.not_blank_pushSubstitution x
      exact .here (Steps.again hq fun hblank => absurd hblank hgathered)
    | none => exact Steps.again hq fun hblank => absurd hblank.of_push.1 (by decide)
  · rw [if_neg hdollar]
    refine .ite ?_ fun _ => ?_
    · rintro rfl
      exact unquotedEscape_misses hu hc
    · refine .knownText (u := [c]) (v := []) fun hread => Steps.again (by simp) ?_
      intro hblank
      obtain ⟨hcblank, hblank⟩ := hblank.of_push
      refine (hu hblank).further (by simp) (hread ▸ .blank hcblank .nil) fun hk => ?_
      rw [hk, hc₀, Option.some.injEq] at hc
      rw [← hc, hvisible] at hcblank
      cases hcblank

theorem unquotedCharacter_misses (hgroup : F.inGroup = false) {u : Unquoted π}
    (hu : Stalls F k u p.length) :
    Ensures (State.At F p []) (unquotedCharacter (.value (substitution false)) u)
      (Steps F p.length (Stalls F k) (Misses F k)) := by
  cases hdrop : F.text.drop p.length with
  | nil =>
    refine .peekNothing hdrop (Steps.stop (Nat.le_refl _) fun hblank => .gap (hu hblank) ?_)
    intro c hc
    rw [List.getElem?_eq_none (List.drop_eq_nil_iff.mp hdrop)] at hc
    cases hc
  | cons c w =>
    have hc := getElem?_of_drop hdrop
    refine .peekNext hdrop (.inGroup (.ite (fun h => ?_) fun _ => .ite (fun hends => ?_) fun _ =>
      .ite (fun h => ?_) fun _ => .accept (unquotedBehind_misses hc₀ hvisible hu hc)))
    · simp [hgroup] at h
    · refine .retreat (Steps.stop (Nat.le_refl _) fun hblank => .gap (hu hblank) ?_)
      intro x hx
      obtain rfl := Option.some.inj (hc.symm.trans hx)
      exact endsUnquoted_value hends
    · simp [Role.isKey] at h

/-- No more than a gap is consumed in search of an unquoted text that is missing. -/
theorem unquotedText_misses (hgroup : F.inGroup = false) (hk : p.length = k) :
    Ensures (State.At F p []) (unquotedText (.value (substitution false)))
      (Onward F p.length fun r j => r = none → Missed F.text k j) := by
  have hempty : Stalls F k ⟨.empty, F.mark p.length⟩ p.length := fun _ => hk ▸ .here _ _
  refine .here (.call (repeating_ensures (fun u q hu =>
    unquotedCharacter_misses hc₀ hvisible hgroup hu) hempty) fun u q hq hu => ?_)
  refine .ite (fun hnone => .done hq fun _ => ?_) fun _ => .done hq fun h => by cases h
  exact hu (Gathered.blank_of_finish (List.isEmpty_iff.mp hnone))

/-! ## Values -/

theorem valueText_misses (hgroup : F.inGroup = false) (hk : p.length = k) :
    Ensures (State.At F p []) valueText
      (Onward F p.length fun r j => r = none → Missed F.text k j) := by
  have hthere : ∀ {P : State π → Prop} {g : Grammar π (Text (Span π))}
      {R : Text (Span π) → Nat → Prop}, Ensures P g (Onward F p.length R) →
      Ensures P (g >>= fun t => pure (some t))
        (Onward F p.length fun r j => r = none → Missed F.text k j) :=
    fun hg => .mapped hg fun _ _ _ h => by cases h
  refine .peekOnLineKnown (hk ▸ hc₀) hvisible
    (.accept (.ite ?_ fun _ => .ite ?_ fun _ => .ite ?_ fun _ => ?_))
  · rintro rfl
    exact hthere (doubleQuotedText_reads Role.value_reads p)
  · rintro rfl
    exact hthere (singleQuotedText_reads p)
  · rintro rfl
    exact hthere (blockText_reads p)
  · exact .putBack (ne_newline_of_visible hvisible) (unquotedText_misses hc₀ hvisible hgroup hk)

end

/-- A sequence or a map is never missing. -/
theorem valueFrom_misses [DecidableEq π] {inner : Grammar π (Option (Value (Span π)))}
    (hgroup : F.inGroup = false)
    (hinner : F.depth < F.limit → Reads F.deeper (Value.Within F.cover) inner) {c : Char}
    (hc : F.text[p.length]? = some c) (hvisible : isBlank c = false) :
    Ensures (State.At F (c :: p) []) (valueFrom inner c)
      (Onward F p.length fun v j => v = none → c ∉ ['[', '{'] ∧ Missed F.text p.length j) := by
  refine .ite ?_ fun hbracket => .ite ?_ fun hbrace => .putBack (ne_newline_of_visible hvisible) ?_
  · rintro rfl
    exact (sequence_reads hinner p).mapped fun _ _ _ h => by cases h
  · rintro rfl
    exact (map_reads hgroup hinner p).mapped fun _ _ _ h => by cases h
  · refine (valueText_misses hc hvisible hgroup rfl).mapped fun t j ht hnone => ⟨?_, ht ?_⟩
    · simp [hbracket, hbrace]
    · simpa using hnone

end Diagram.Grammar
