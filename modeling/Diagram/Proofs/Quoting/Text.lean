import Diagram.Proofs.Document.Text
import Diagram.Proofs.Quoting.Basic

/-!
Texts are read back in the form that was chosen for them. Without quotes, the text goes on as long
as no character ends it: `Plain` says so of a text in front of what follows it, which is all that
the grammar asks and all that the choice of quotes has to grant.
-/
namespace Diagram.Grammar

open Document (doubled singleQuoted)

variable {π : Type} {F : Frame π} {p u : List Char} {role : Role π}

/-! ## Text without quotes -/

/-- In front of `u`, the character `c` belongs to an unquoted text and stands for itself. -/
structure Taken (role : Role π) (c : Char) (u : List Char) : Prop where
  goesOn : endsUnquoted role c = false
  escape : c ≠ '\\'
  dollar : c = '$' → role.substitution? = pure none
  edge : role.isKey = true → c = '-' ∨ c = '*' → ∃ x v, u = x :: v ∧ startsEdge c x = false

/-- An unquoted text that ends in front of `u`, and no earlier. -/
inductive Plain (role : Role π) (u : List Char) : List Char → Prop where
  | nil (h : ∀ c ∈ u.head?, endsUnquoted role c = true) : Plain role u []
  | cons {c : Char} {cs : List Char} (h : Taken role c (cs ++ u)) (hcs : Plain role u cs) :
    Plain role u (c :: cs)

/-- The characters `cs` have been read, which go to the end of the literal. -/
def Extends (cs : List Char) (g g' : Gathered π) : Prop :=
  g'.pieces = g.pieces ∧ g'.value = cs.reverse ++ g.value ∧ g'.raw = cs.reverse ++ g.raw

theorem Extends.append {cs ds : List Char} {g g₁ g' : Gathered π} (h : Extends cs g g₁)
    (h' : Extends ds g₁ g') : Extends (cs ++ ds) g g' := by
  obtain ⟨hpieces, hvalue, hraw⟩ := h
  obtain ⟨hpieces', hvalue', hraw'⟩ := h'
  exact ⟨hpieces'.trans hpieces, by simp [hvalue', hvalue], by simp [hraw', hraw]⟩

theorem unquotedBehind_taken {c : Char} {g : Unquoted π} (hc : Taken role c u) :
    Ahead F p [] u (unquotedBehind role g c)
      (Arrives F u fun next => ∃ g', next = .again g' ∧ Extends [c] g.text g'.text) := by
  have hpush : ∀ stop, Ahead F p [] u (if c = '\\' then unquotedEscape ⟨g.text, stop⟩
      else pure (.again ⟨g.text.push c, stop⟩))
      (Arrives F u fun next => ∃ g', next = .again g' ∧ Extends [c] g.text g'.text) :=
    fun _ => .no hc.escape (.done ⟨_, rfl, rfl, rfl, rfl⟩)
  refine .here ?_
  by_cases hdollar : c = '$'
  · rw [if_pos hdollar, hc.dollar hdollar, pure_bind]
    exact hpush _
  · rw [if_neg hdollar, pure_bind]
    exact hpush _

theorem unquotedCharacter_taken {c : Char} {g : Unquoted π} (hgroup : c = ')' → F.inGroup = false)
    (hc : Taken role c u) :
    Ahead F p [] (c :: u) (unquotedCharacter role g)
      (Arrives F u fun next => ∃ g', next = .again g' ∧ Extends [c] g.text g'.text) := by
  have hclosing : ¬(F.inGroup && c = ')') = true := by
    intro h
    obtain ⟨hin, hc⟩ := Bool.and_eq_true_iff.mp h
    simp [hgroup (by simpa using hc)] at hin
  have hends : ¬endsUnquoted role c = true := by simp [hc.goesOn]
  refine .peek (.inGroup (.no hclosing (.no hends ?_)))
  by_cases hedge : (role.isKey && (c = '-' || c = '*')) = true
  · -- a dash or a star is left only after a look at the character behind it
    obtain ⟨hkey, hconnector⟩ := Bool.and_eq_true_iff.mp hedge
    obtain ⟨x, v, rfl, hstarts⟩ := hc.edge hkey (by simpa using hconnector)
    refine .yes hedge (.peek (.retreat (.no (by simp [hstarts]) ?_)))
    exact .peek (.accept (unquotedBehind_taken hc))
  · exact .no hedge (.accept (unquotedBehind_taken hc))

theorem unquotedCharacter_end (hgroup : F.inGroup = false) {g : Unquoted π}
    (hu : ∀ c ∈ u.head?, endsUnquoted role c = true) :
    Ahead F p [] u (unquotedCharacter role g)
      (Arrives F u fun next => ∃ g', next = .stop g' ∧ Extends [] g.text g'.text) := by
  cases u with
  | nil => exact .peekEnd (.done ⟨g, rfl, rfl, rfl, rfl⟩)
  | cons c u =>
    refine .peek (.inGroup (.no (by simp [hgroup]) (.yes (hu c rfl) (.retreat (.done ?_)))))
    exact ⟨g, rfl, rfl, rfl, rfl⟩

theorem unquotedCharacters_plain (hgroup : F.inGroup = false) {cs : List Char} {g : Unquoted π}
    (hcs : Plain role u cs) :
    Ahead F p [] (cs ++ u) (repeating (unquotedCharacter role) g)
      (Arrives F u fun g' => Extends cs g.text g'.text) := by
  induction hcs generalizing g p with
  | nil hu => exact .stop (unquotedCharacter_end hgroup hu)
  | cons hc _ ih =>
    refine .again (unquotedCharacter_taken (fun _ => hgroup) hc) (by simp) fun g₁ q h₁ => ?_
    exact .mono ih fun g' h => h₁.append h

/-- A text that consists of one literal, which is written as what it stands for. -/
def IsUnquoted (s : String) (t : Text (Span π)) : Prop :=
  ∃ range, t = .unquoted range [.literal s s]

/-- The blanks behind a text are trimmed off its only literal. -/
theorem Extends.finish {s : String} {b : List Char} {g : Gathered π}
    (h : Extends (s.toList ++ b) .empty g) (hne : s.toList ≠ [])
    (hlast : ∀ c ∈ s.toList.getLast?, isBlank c = false) (hb : ∀ x ∈ b, isBlank x = true) :
    g.trimEnd.finish = [.literal s s] := by
  obtain ⟨hpieces, hvalue, hraw⟩ := h
  have htrimmed : (s.toList ++ b).reverse.dropWhile isBlank = s.toList.reverse := by
    rw [List.reverse_append, List.dropWhile_append_of_pos (by simpa using hb)]
    cases hreverse : s.toList.reverse with
    | nil => rfl
    | cons c cs =>
      have hc : isBlank c = false := hlast c (by rw [← List.head?_reverse, hreverse]; rfl)
      rw [List.dropWhile_cons_of_neg (by simp [hc])]
  simp only [List.reverse_append] at htrimmed
  simp [Gathered.finish, Gathered.flush, Gathered.trimEnd, hpieces, hvalue, hraw, Gathered.empty,
    htrimmed, hne]

/-- A text is read whole if its characters are, with blanks behind it. -/
theorem unquotedText_extends {s : String} {b v : List Char} (hne : s.toList ≠ [])
    (hlast : ∀ c ∈ s.toList.getLast?, isBlank c = false) (hb : ∀ x ∈ b, isBlank x = true)
    (hread : ∀ g, Ahead F p [] v (repeating (unquotedCharacter role) g)
      (Arrives F u fun g' => Extends (s.toList ++ b) g.text g'.text)) :
    Ahead F p [] v (unquotedText role) (Arrives F u fun r => ∃ t, r = some t ∧ IsUnquoted s t) := by
  refine .here (.call (hread _) fun g q h => ?_)
  rw [h.finish hne hlast hb]
  exact .no (by simp) (.done ⟨_, rfl, _, rfl⟩)

/-- A text goes without quotes if its first character is neither a quote nor a bar. -/
theorem text_unquoted {b v : List Char} {c : Char} {R : Option (Text (Span π)) → Prop}
    (hb : LineBlanks b) (hvisible : isBlank c = false)
    (hc : c ∉ ['"', '\'', '|'])
    (hread : ∀ p, Ahead F p [] (c :: v) (unquotedText role) (Arrives F u R)) :
    Ahead F p [] (b ++ c :: v) (text role) (Arrives F u R) := by
  simp only [List.mem_cons, List.not_mem_nil, or_false, not_or] at hc
  obtain ⟨hdouble, hsingle, hbar⟩ := hc
  refine .peekOnLine hb hvisible (.accept ?_)
  refine .no hdouble (.no hsingle (.no hbar (.putBack (ne_newline_of_visible hvisible) ?_)))
  exact hread _

/-- Unless it starts or ends in blanks, a plain text is read whole. -/
theorem text_plain (hgroup : F.inGroup = false) {inKey : Bool} {s : String} (hbare : Bare inKey s)
    (hs : Plain role u s.toList) :
    Ahead F p [] (s.toList ++ u) (text role)
      (Arrives F u fun r => ∃ t, r = some t ∧ IsUnquoted s t) := by
  have hread : ∀ p, Ahead F p [] (s.toList ++ u) (unquotedText role)
      (Arrives F u fun r => ∃ t, r = some t ∧ IsUnquoted s t) := fun _ =>
    unquotedText_extends (b := []) hbare.nonempty (trim_eq_self hbare.trimmed).2 (by simp)
      fun g => by simpa using unquotedCharacters_plain hgroup hs
  obtain ⟨c, cs, hcs, hvisible, hc, -⟩ := hbare.starts
  rw [hcs] at hread ⊢
  refine text_unquoted (b := []) (by simp) hvisible ?_ hread
  simp only [List.mem_cons, List.not_mem_nil, or_false, not_or] at hc ⊢
  exact ⟨hc.1, hc.2.1, hc.2.2.1⟩

/-! ## Text in single quotes -/

theorem doubled_length_pos (c : Char) : 0 < (doubled c).length := by
  unfold doubled
  split <;> simp

section

variable {start : π} {text : List Char}

theorem singleQuotedCharacter_doubled {c : Char} (hline : c ≠ '\n') {x : Char} (hx : x ≠ '\n') :
    Ahead F p [] (doubled c ++ x :: u) (singleQuotedCharacter start text)
      (Arrives F (x :: u) fun next => ∃ text', next = .again text' ∧ text' = c :: text) := by
  by_cases hquote : c = '\''
  · subst hquote
    refine .peek (.no (by decide) (.accept (.yes rfl (.peek (.yes rfl (.accept (.done ?_)))))))
    exact ⟨_, rfl, rfl⟩
  rw [doubled, if_neg hquote]
  refine .peek (.no hline (.accept (.no hquote ?_)))
  by_cases hescape : c = '\\'
  · subst hescape
    exact .yes rfl (.peek (.no hx (.retreat (.done ⟨_, rfl, rfl⟩))))
  · exact .no hescape (.done ⟨_, rfl, rfl⟩)

theorem singleQuotedCharacter_quote (hu : u.head? ≠ some '\'') :
    Ahead F p [] ('\'' :: u) (singleQuotedCharacter start text)
      (Arrives F u fun next => ∃ text', next = .stop text' ∧ text' = text) := by
  refine .peek (.no (by decide) (.accept (.yes rfl ?_)))
  cases u with
  | nil => exact .peekEnd (.done ⟨_, rfl, rfl⟩)
  | cons x u => exact .peek (.no (by simpa using hu) (.retreat (.done ⟨_, rfl, rfl⟩)))

theorem singleQuotedCharacters_doubled {cs : List Char} (hline : '\n' ∉ cs)
    (hu : u.head? ≠ some '\'') :
    Ahead F p [] (cs.flatMap doubled ++ '\'' :: u)
      (repeating (singleQuotedCharacter start) text)
      (Arrives F u fun text' => text' = cs.reverse ++ text) := by
  induction cs generalizing text p with
  | nil => exact .stop (singleQuotedCharacter_quote hu)
  | cons c cs ih =>
    rw [List.mem_cons, not_or] at hline
    -- what follows is not a new line, neither the next character nor the closing quote
    obtain ⟨x, v, hv, hx⟩ : ∃ x v, cs.flatMap doubled ++ '\'' :: u = x :: v ∧ x ≠ '\n' := by
      cases cs with
      | nil => exact ⟨'\'', u, rfl, by decide⟩
      | cons y cs =>
        have hy : y ≠ '\n' := fun h => hline.2 (h ▸ List.mem_cons_self)
        rw [List.flatMap_cons, doubled]
        split
        · exact ⟨'\'', _, rfl, by decide⟩
        · exact ⟨y, _, rfl, hy⟩
    have hstep : Ahead F p [] (doubled c ++ x :: v) (singleQuotedCharacter start text)
        (Arrives F (x :: v) fun next => ∃ text', next = .again text' ∧ text' = c :: text) :=
      singleQuotedCharacter_doubled (fun h => hline.1 h.symm) hx
    rw [← hv] at hstep
    rw [List.flatMap_cons, List.append_assoc]
    refine .again hstep ?_ fun text' q h => ?_
    · have hc := doubled_length_pos c
      simp only [List.length_append]
      omega
    · subst h
      refine .mono (ih hline.2) fun text' h => ?_
      rw [h]
      simp

end

/-- A text in single quotes is read whole, if no quote follows it. -/
theorem text_singleQuoted {s : String} (hline : '\n' ∉ s.toList) (hu : u.head? ≠ some '\'') :
    Ahead F p [] (singleQuoted s ++ u) (text role)
      (Arrives F u fun r => ∃ t, r = some t ∧ ∃ range, t = .singleQuoted range s) := by
  have happend : singleQuoted s ++ u = '\'' :: (s.toList.flatMap doubled ++ '\'' :: u) := by
    simp [singleQuoted]
  rw [happend]
  refine .peekOnLine (b := []) (by simp) (by decide) (.accept (.no (by decide) (.yes rfl ?_)))
  refine .call (R := fun t => ∃ range, t = .singleQuoted range s) (v := u) ?_ fun t q h => ?_
  · refine .placeOf (by decide) (.call (singleQuotedCharacters_doubled hline hu) fun text q h => ?_)
    subst h
    refine .here (.done ⟨⟨F.mark p.length, F.mark q.length⟩, ?_⟩)
    simp
  · exact .done ⟨t, rfl, h⟩

/-! ## The form that was chosen -/

/-- A text is read back in a form, and stands for `s` and nothing else. -/
def ReadBack (s : String) (form : Form) (t : Text (Span π)) : Prop :=
  t.form = form ∧ t.plain? = some s

/-- A text is read back as it was written, if without quotes it is plain where it stands. -/
theorem text_readBack {ρ : Type} (hgroup : F.inGroup = false) {inKey : Bool} {s : String}
    {chosen : Text ρ} {written : List Char} (hchosen : Chosen inKey s chosen)
    (hwritten : chosen.written? inKey = some written) (hrole : role.Substitutes (!inKey))
    (hplain : Bare inKey s → Plain role u s.toList) (hu : u.head? ≠ some '\'') :
    Ahead F p [] (written ++ u) (text role)
      (Arrives F u fun r => ∃ t, r = some t ∧ ReadBack s chosen.form t) := by
  cases hchosen with
  | unquoted mark hbare =>
    obtain rfl : s.toList = written := Option.some.inj hwritten
    apply Ahead.mono (text_plain hgroup hbare (hplain hbare))
    rintro r ⟨t, rfl, range, rfl⟩
    exact ⟨_, rfl, rfl, rfl⟩
  | doubleQuoted mark =>
    obtain rfl : Document.quoted (!inKey) s = written := Option.some.inj hwritten
    apply Ahead.mono (text_written (b := []) hrole s (by simp))
    rintro r ⟨t, rfl, hplain, range, pieces, rfl⟩
    exact ⟨_, rfl, rfl, hplain⟩
  | singleQuoted mark hline =>
    obtain rfl : singleQuoted s = written := Option.some.inj hwritten
    apply Ahead.mono (text_singleQuoted hline hu)
    rintro r ⟨t, rfl, range, rfl⟩
    exact ⟨_, rfl, rfl, rfl⟩

/-! ## Keys -/

theorem keySpecials_taken {c : Char} (hc : c ∉ keySpecials) (u : List Char) :
    Taken (.key : Role π) c u := by
  simp only [keySpecials, List.mem_cons, List.not_mem_nil, or_false, not_or] at hc
  refine ⟨?_, hc.2.2.2.1, fun _ => rfl, fun _ h => ?_⟩
  · simp [endsUnquoted, Role.isKey, hc]
  · simp [hc] at h

/-- A key that needs no quotes is plain at the end of the text and in front of a point. -/
theorem plain_of_key {first : Bool} {cs : List Char} (hcs : keyNeedsQuotes first cs = false)
    (hu : ∀ c ∈ u.head?, c = '.') : Plain (.key : Role π) u cs := by
  induction cs generalizing first with
  | nil =>
    refine .nil fun c hc => ?_
    rw [hu c hc]
    rfl
  | cons c cs ih =>
    obtain ⟨hc, hrest⟩ := keyNeedsQuotes_head hcs
    refine .cons ?_ (ih hrest)
    rcases hc with hc | ⟨rfl, x, xs, rfl, hx⟩ | ⟨rfl, -⟩
    · exact keySpecials_taken hc _
    · -- the character behind the dash starts no connection with it
      refine ⟨rfl, by decide, fun h => absurd h (by decide), fun _ _ => ⟨x, xs ++ u, rfl, ?_⟩⟩
      obtain ⟨hnext, -⟩ := keyNeedsQuotes_head hrest
      rcases hnext with hnext | ⟨rfl, -⟩ | ⟨rfl, -⟩
      · simp only [keySpecials, List.mem_cons, List.not_mem_nil, or_false, not_or] at hnext
        simp [startsEdge, hnext]
      · exact absurd rfl hx
      · rfl
    · exact ⟨rfl, by decide, fun h => absurd h (by decide), fun _ h => absurd h (by decide)⟩

/-- A name is read back as a segment of a path. -/
theorem segment_readBack {ρ : Type} (hgroup : F.inGroup = false) {s : String} {chosen : Text ρ}
    {written : List Char} (hchosen : Chosen true s chosen)
    (hwritten : chosen.written? true = some written) :
    SegmentFound F [] written (ReadBack (π := π) s chosen.form) where
  starts := by
    obtain ⟨c, cs, hcs, hvisible, -, -, hgroup⟩ := hchosen.starts hwritten
    exact ⟨c, cs, hcs, hvisible, hgroup rfl⟩
  reads p v hv := by
    have hpoint : ∀ c ∈ v.head?, c = '.' := by
      rcases hv with rfl | ⟨w, rfl⟩
      · simp
      · simp
    refine text_readBack hgroup hchosen hwritten (.inr rfl)
      (fun hbare => plain_of_key hbare.plain hpoint) fun hquote => ?_
    exact absurd (hpoint _ hquote) (by decide)

/-! ## Values -/

/-- A value that needs no quotes is plain at the end of the text. -/
theorem plain_of_value {substitution : Grammar π (Option (Substitution (Span π)))} {cs : List Char}
    (hcs : ∀ c ∈ cs, c ∉ valueSpecials) : Plain (.value substitution) [] cs := by
  induction cs with
  | nil => exact .nil (by simp)
  | cons c cs ih =>
    have hc := hcs c List.mem_cons_self
    simp only [valueSpecials, List.mem_cons, List.not_mem_nil, or_false, not_or] at hc
    refine .cons ⟨?_, hc.2.2.2.1, ?_, ?_⟩ (ih fun x hx => hcs x (List.mem_cons_of_mem c hx))
    · simp [endsUnquoted, Role.isKey, hc]
    · exact fun h => absurd h (by simp [hc])
    · exact fun h => absurd h Bool.false_ne_true

/-- A text is read back as a value, and then it is seen what scalar it is. -/
theorem value_readBack [DecidableEq π] {ρ : Type} (hgroup : F.inGroup = false) {s : String}
    {chosen : Text ρ} {written : List Char} (hchosen : Chosen false s chosen)
    (hwritten : chosen.written? false = some written) :
    Ahead F p [] written value (Arrives F [] fun r =>
      ∃ v, r = some v ∧ ∃ t, ReadBack s chosen.form t ∧ v = .scalar (scalarOf t)) := by
  have hplain : Bare false s → Plain (.value (substitution false) : Role π) [] s.toList := by
    intro hbare
    refine plain_of_value fun c hc hspecial => ?_
    have hnone := hbare.plain
    simp only [needsQuotes, Bool.false_eq_true, if_false, valueNeedsQuotes, Bool.or_eq_false_iff,
      List.any_eq_false, decide_eq_true_eq] at hnone
    exact hnone.2 c hc hspecial
  have hread : ∀ q, Ahead F q [] (written ++ []) valueText
      (Arrives F [] fun r => ∃ t, r = some t ∧ ReadBack s chosen.form t) := fun _ =>
    text_readBack hgroup hchosen hwritten (.inl rfl) hplain (by simp)
  simp only [List.append_nil] at hread
  obtain ⟨c, cs, rfl, hvisible, hsequence, hmap, -⟩ := hchosen.starts hwritten
  refine .limit (.outsideGroup hgroup (.peekOnLine (b := []) (by simp) hvisible (.accept ?_)))
  refine .no hsequence (.no hmap (.putBack (ne_newline_of_visible hvisible) ?_))
  refine .call (hread _) fun r q h => ?_
  obtain ⟨t, rfl, ht⟩ := h
  exact .done ⟨_, rfl, t, ht, rfl⟩

end Diagram.Grammar
