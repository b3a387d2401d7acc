import Diagram.Proofs.Separator.Block
import Diagram.Proofs.Separator.Rest
import Diagram.Proofs.Twin.Text

/-!
Texts, key paths and substitutions in front of a semicolon. The runs come apart in three ways: both
land where the line is over, one of them behind some blanks; a dash or a star at the end of the text
strands the first run; or a parenthesis at the end of the text closes a group for the first run
where the second takes it for text. A dollar sign at the end of the text is reported by the second
run.
-/
namespace Diagram

/-- In front of the first run is a parenthesis that closes an edge group, and nothing visible behind
it. -/
def Seam.Closes (S : Seam) (s : State Nat) : Prop :=
  S.first.inGroup = true ∧ S.EndsIn ')' ∧
    ∃ q, s.At S.first q [] ∧ S.first.text[q.length]? = some ')'

namespace Grammar

variable {α β γ : Type} {S : Seam} {p : List Char} {role : Role Nat}

/-! ## How texts come apart -/

/-- The first run is at the parenthesis that closes the group, and the second has gone over it and
has a result with `T`. -/
def Parts (S : Seam) (T : α → Prop) (_ b : α) (s t : State Nat) : Prop :=
  S.Closes s ∧ T b ∧ t.Rests S.second (';' :: S.behind)

/-- The runs have landed, the first is stranded, or the second has taken a parenthesis for text. -/
def TextApart (S : Seam) (role : Role Nat) (m : α → γ) (T : α → Prop) (a b : α) (s t : State Nat) :
    Prop :=
  Landed S m a b s t ∨ role.Strands S.pairing s ∨ Parts S T a b s t

namespace TextApart

variable {m : α → γ} {T : α → Prop} {a b : α} {s t : State Nat}

theorem landed (h : Landed S m a b s t) : TextApart S role m T a b s t := .inl h

theorem strands (h : role.Strands S.pairing s) : TextApart S role m T a b s t := .inr (.inl h)

theorem parts (h : Parts S T a b s t) : TextApart S role m T a b s t := .inr (.inr h)

end TextApart

/-- What the first run does at the end of its text, and the second with the semicolon looked at. -/
theorem Apart.ahead {l u : List Char} {g₁ g₂ : Grammar Nat β} {X : β → State Nat → Prop}
    {R : β → Prop} {E : β → β → State Nat → State Nat → Prop}
    (h₁ : Ensures (State.Stands S.first p [] l.reverse) g₁ X)
    (h₂ : Ahead S.second p (';' :: l) S.behind g₂ (Arrives S.second (u ++ ';' :: S.behind) R))
    (hu : LineBlanks u)
    (hE : ∀ x y s t, X x s → R y → t.Rests S.second (';' :: S.behind) → E x y s t) :
    Apart S (S.Aside p l) g₁ g₂ E := by
  intro s t hs
  obtain ⟨hR, q, ht⟩ := h₂ t hs.second
  exact .apart (hE _ _ _ _ (h₁ s hs.first) hR ⟨q, u, hu, ht⟩)

/-! ## Unquoted text -/

/-- A text may hold the same substitutions in both runs. -/
structure Role.Seamless (S : Seam) (role : Role Nat) : Prop where
  substitution : ∀ p, Abreast S (S.Beside ('$' :: p) []) role.substitution? Nowhere
  first_reads : role.Reads S.first
  second_reads : role.Reads S.second

theorem Role.key_seamless : Role.Seamless S .key where
  substitution _ := .done
  first_reads := Role.key_reads
  second_reads := Role.key_reads

/-- There is something visible in the text. -/
def Unquoted.Visible (u : Unquoted Nat) : Prop :=
  u.text.trimEnd.finish ≠ []

/-- The first run ends the text, and the second goes on with it unless the first is stranded. -/
def UnquotedApart (S : Seam) (role : Role Nat) (a b : Next (Unquoted Nat))
    (s t : State Nat) : Prop :=
  ∃ u, a = .stop u ∧ (role.Strands S.pairing s ∨
    ∃ v, b = .again v ∧ (Landed S id u v s t ∨ Parts S Unquoted.Visible u v s t))

theorem unquotedEscape_abreast (u : Unquoted Nat) (p : List Char) :
    Abreast S (S.Beside ('\\' :: p) []) (unquotedEscape u) (UnquotedApart S role) := by
  refine .read (X := Never) (.placeOf (by decide) (.astray_reportToReach S.tail_ne_nil))
    (fun _ _ _ _ h => h.elim) fun c => .ite (fun _ => ?_) fun _ => .here .done
  refine .peekOnLine .done (fun b hb => ?_) fun b x hx =>
    .accept (.putBack (ne_newline_of_visible hx) .done)
  refine .ahead (X := fun next s => next = .stop u ∧ s.Rests S.first [])
    (fun s hs => ⟨rfl, rests_of_stands hb hs⟩) (.accept (.putBack (by decide) (.done rfl)))
    lineBlanks_nil ?_
  rintro _ _ s t ⟨rfl, hs⟩ rfl ht
  exact ⟨u, rfl, .inr ⟨u, rfl, .inl ⟨rfl, hs, ht⟩⟩⟩

theorem unquotedBehind_abreast (hrole : role.Seamless S) (u : Unquoted Nat) (c : Char)
    (p : List Char) :
    Abreast S (S.Beside (c :: p) []) (unquotedBehind role u c) (UnquotedApart S role) := by
  refine .here ?_
  by_cases hdollar : c = '$'
  · subst hdollar
    refine .call (hrole.substitution p) fun r q => ?_
    cases r with
    | none => exact .done
    | some s => exact .here .done
  · simp only [if_neg hdollar, pure_bind]
    by_cases hescape : c = '\\'
    · subst hescape
      exact unquotedEscape_abreast ⟨u.text, _⟩ p
    · simp only [if_neg hescape]
      exact .done

/-- A parenthesis at the end of the text ends the group for the first run, but with a semicolon
behind it, it belongs to the text. -/
theorem groupEnd_abreast (hgroup : S.first.inGroup = true) (u : Unquoted Nat) (p : List Char) :
    Abreast S (S.Beside p [')']) (groupEnd u ')') (UnquotedApart S role) := by
  refine .known (l := []) fun hc => .peekOnLine .done (fun b hb => ?_) fun b x _ => .retreat
    (.ite (fun _ => .done) fun _ => .peekKnown hc (.accept (.here .done)))
  refine .ahead (u := b.reverse) (X := fun next s => next = .stop u ∧ S.Closes s)
    (R := fun next => ∃ v, next = .again v ∧ v.Visible)
    (fun s hs => ⟨rfl, hgroup, ?_, p, hs.stands, hc⟩) (.retreat (.no (by decide) ?_)) hb.reverse ?_
  · have htext : S.first.text.reverse = b ++ ')' :: p := by simp [← hs.text]
    rw [Seam.EndsIn, htext]
    exact firstVisible_append (fun x hx => (hb x hx).1) (by decide)
  · rw [List.reverse_cons, List.reverse_append, List.append_assoc, List.append_assoc]
    refine .peek (.accept (.here (.done ⟨_, rfl, ?_⟩)))
    simp [Unquoted.Visible, Gathered.push, Gathered.trimEnd, Gathered.finish, Gathered.flush,
      show isBlank ')' = false from rfl]
  · rintro _ _ s t ⟨rfl, hs⟩ ⟨v, rfl, hvisible⟩ ht
    exact ⟨u, rfl, .inr ⟨v, rfl, .inr ⟨hs, hvisible, ht⟩⟩⟩

theorem unquotedConnector_abreast (hrole : role.Seamless S) (hkey : role.isKey = true)
    (u : Unquoted Nat) {c : Char} (hc : c = '-' ∨ c = '*') (p : List Char) :
    Abreast S (S.Beside p [c]) (unquotedConnector role u c) (UnquotedApart S role) := by
  refine .known (l := []) fun hknown => .peekStray (X := Stops fun _ => role.Strands S.pairing)
    (fun s hs => ?_) (fun _ _ _ _ ⟨u, hu, h⟩ => ⟨u, hu, .inl h⟩) fun x => .retreat
      (.ite (fun _ => .done) fun _ =>
        .peekKnown hknown (.accept (unquotedBehind_abreast hrole u c p)))
  have hrest : S.first.text.drop p.length = [c] := by simp [← hs.text]
  exact .inr ⟨S.tail_ne_nil, u, rfl, hkey, p, c, hs.stands, hrest, hc⟩

theorem unquotedCharacter_abreast (hrole : role.Seamless S) (u : Unquoted Nat) (p : List Char) :
    Abreast S (S.Beside p []) (unquotedCharacter role u) (UnquotedApart S role) := by
  refine .peekSame ?_ .done fun c => .inGroup ?_
  · -- a semicolon is no closing parenthesis, and it ends every unquoted text
    refine Grammar.ext fun s => ?_
    simp [bind_apply, Grammar.inGroup, Grammar.endsUnquoted]
  · refine .ite (fun hclose => ?_) fun _ => .ite (fun _ => .retreat .done) fun _ =>
      .ite (fun hconnector => ?_) fun _ => .accept (unquotedBehind_abreast hrole u c p)
    · obtain ⟨hgroup, rfl⟩ : S.first.inGroup = true ∧ c = ')' := by simpa using hclose
      exact groupEnd_abreast hgroup u p
    · obtain ⟨hkey, hc⟩ : role.isKey = true ∧ (c = '-' ∨ c = '*') := by simpa using hconnector
      exact unquotedConnector_abreast hrole hkey u hc p

/-- The second run goes on to the semicolon, over blanks that do not belong to the text. -/
theorem unquotedCharacters_abreast (hrole : role.Seamless S) (p : List Char)
    (hle : p.length ≤ S.first.text.length) :
    Abreast S (S.Beside p []) (repeating (unquotedCharacter role) ⟨.empty, p.length⟩)
      (TextApart S role (fun u => (u.text.trimEnd, u.stop)) Unquoted.Visible) := by
  have hmark : ∀ F : Frame Nat, F.meter = .index → p.length ≤ F.text.length →
      Unquoted.Within F p.length ⟨.empty, p.length⟩ p.length := by
    intro F hmeter hlength
    refine ⟨p.length, Nat.le_refl _, Nat.le_refl _, ?_, Nat.le_refl _⟩
    rw [Tape.mark, hmeter, Meter.index_after, List.length_take, Nat.min_eq_left hlength]
  have hle' : p.length ≤ S.second.text.length := by
    rw [S.text, List.length_append]
    omega
  refine repeating_abreast (hmark _ S.meter hle) (hmark _ S.second_meter hle')
    (fun _ _ hu => unquotedCharacter_reads hrole.first_reads hu)
    (fun _ _ hu => unquotedCharacter_reads hrole.second_reads hu)
    (fun u q _ _ => unquotedCharacter_abreast hrole u q) ?_
  rintro _ b s t ⟨u, rfl, hstranded | ⟨v, rfl, h⟩⟩
  · exact .apart (.strands hstranded)
  -- the second run may still have blanks to read up to the semicolon, which its text leaves out
  have hover : ∀ t : State Nat, t.Rests S.second (';' :: S.behind) →
      (repeating (unquotedCharacter role) v t).1.text.trimEnd = v.text.trimEnd ∧
      (repeating (unquotedCharacter role) v t).1.stop = v.stop ∧
      (repeating (unquotedCharacter role) v t).2.Rests S.second (';' :: S.behind) := by
    rintro t ⟨q, b, hb, ht⟩
    obtain ⟨⟨htext, hstop⟩, q', ht'⟩ := unquotedCharacters_over hb (.inr ⟨_, rfl⟩) t ht
    exact ⟨htext, hstop, q', [], lineBlanks_nil, ht'⟩
  rcases h with ⟨rfl, hs, ht⟩ | ⟨hs, hvisible, ht⟩
  · obtain ⟨htext, hstop, ht'⟩ := hover t ht
    exact .apart (.landed ⟨Prod.ext htext.symm hstop.symm, hs, ht'⟩)
  · obtain ⟨htext, -, ht'⟩ := hover t ht
    refine .apart (.parts ⟨hs, ?_, ht'⟩)
    rw [Unquoted.Visible] at hvisible ⊢
    exact htext ▸ hvisible

theorem unquotedText_abreast (hrole : role.Seamless S) (p : List Char) :
    Abreast S (S.Beside p []) (unquotedText role) (TextApart S role id (·.isSome = true)) := by
  refine .here (.bounded fun hle =>
    .callStray (unquotedCharacters_abreast hrole p (by simpa using hle)) (fun u v => ?_)
      fun u q => .ite (fun _ => .done) fun _ => .done)
  dsimp only
  simp only [← apply_ite (pure (f := Grammar Nat))]
  rintro s t (⟨hsame, hs, ht⟩ | hstrands | ⟨hs, hvisible, ht⟩)
  · obtain ⟨htext, hstop⟩ := Prod.mk.inj hsame
    exact .apart (.landed ⟨by rw [htext, hstop]; rfl, hs, ht⟩)
  · exact .apart (.strands hstrands)
  · refine .apart (.parts ⟨hs, ?_, ht⟩)
    have hne : ¬v.text.trimEnd.finish.isEmpty = true := fun h => hvisible (List.isEmpty_iff.mp h)
    exact congrArg Option.isSome (if_neg hne)

/-! ## Quoted text -/

theorem doubleQuotedEscape_abreast (start : Nat) (g : Gathered Nat) (p : List Char) :
    Abreast S (S.Beside ('\\' :: p) []) (doubleQuotedEscape start g) Nowhere :=
  .read (X := Never) (.placeOf (by decide) (.astray_reportToReach S.tail_ne_nil))
    (fun _ _ _ _ h => h.elim) fun _ => .done

theorem doubleQuotedBehind_abreast (hrole : role.Seamless S) (start : Nat) (g : Gathered Nat)
    (c : Char) (p : List Char) :
    Abreast S (S.Beside (c :: p) []) (doubleQuotedBehind role start g c) Nowhere := by
  by_cases hdollar : c = '$'
  · subst hdollar
    refine .call (hrole.substitution p) fun r q => ?_
    cases r with
    | none => exact .done
    | some s => exact .done
  · simp only [doubleQuotedBehind, if_neg hdollar, pure_bind]
    refine .ite (fun _ => .done) fun _ => ?_
    by_cases hescape : c = '\\'
    · subst hescape
      exact doubleQuotedEscape_abreast start g p
    · simp only [if_neg hescape]
      exact .done

theorem doubleQuotedCharacter_abreast (hrole : role.Seamless S) (start : Nat) (g : Gathered Nat)
    (p : List Char) :
    Abreast S (S.Beside p []) (doubleQuotedCharacter role start g) Nowhere :=
  .peekStray (X := Never) (.astray_reportToReach S.tail_ne_nil) (fun _ _ _ _ h => h.elim) fun c =>
    .ite (fun _ => .retreat .reportToHere) fun _ =>
      .accept (doubleQuotedBehind_abreast hrole start g c p)

theorem doubleQuotedText_abreast (hrole : role.Seamless S) (p : List Char) :
    Abreast S (S.Beside ('"' :: p) []) (doubleQuotedText role) Nowhere := by
  have hempty : ∀ F : Frame Nat, Gathered.empty.Within F.cover p.length ('"' :: p).length :=
    fun _ => Nat.le_succ p.length
  exact .placeOf (by decide) (.call (repeating_abreast (hempty S.first) (hempty S.second)
    (fun _ _ hg => doubleQuotedCharacter_reads hrole.first_reads hg)
    (fun _ _ hg => doubleQuotedCharacter_reads hrole.second_reads hg)
    (fun g q _ _ => doubleQuotedCharacter_abreast hrole p.length g q) fun _ _ => .nowhere)
    fun _ _ => .here .done)

theorem singleQuote_abreast (text p : List Char) :
    Abreast S (S.Beside p []) (singleQuote text) Nowhere :=
  .peekSame (if_neg (by decide)) .done fun _ => .ite (fun _ => .accept .done) fun _ =>
    .retreat .done

/-- Behind a backslash at the end of its text, the first run wants to read on. -/
theorem singleQuotedBackslash_abreast (text p : List Char) :
    Abreast S (S.Beside p []) (singleQuotedBackslash text)
      (Strays fun next s => (∃ text, next = .again text) ∧ Ended S.pairing s) := by
  refine .peekStray (X := fun next s => (∃ text, next = .again text) ∧ Ended S.pairing s)
    (fun s hs => ?_) (fun _ _ _ _ h => h) fun c =>
      .ite (fun _ => .accept .done) fun _ => .retreat .done
  have hlength : S.first.text.length = p.length := by simp [← hs.text]
  exact .inr ⟨S.tail_ne_nil, ⟨text, rfl⟩, p, hs.stands, Nat.le_of_eq hlength⟩

theorem singleQuotedCharacter_abreast (start : Nat) (text p : List Char) :
    Abreast S (S.Beside p []) (singleQuotedCharacter start text)
      (Strays fun next s => (∃ text, next = .again text) ∧ Ended S.pairing s) :=
  .peekStray (X := Never) (.astray_reportToReach S.tail_ne_nil) (fun _ _ _ _ h => h.elim) fun _ =>
    .ite (fun _ => .retreat .reportToHere) fun _ => .accept
      (.ite (fun _ => (singleQuote_abreast text _).tail) fun _ =>
        .ite (fun _ => singleQuotedBackslash_abreast text _) fun _ => .done)

theorem singleQuotedText_abreast (p : List Char) :
    Abreast S (S.Beside ('\'' :: p) []) singleQuotedText Nowhere := by
  refine .placeOf (by decide) (.call (repeating_abreast trivial trivial
    (fun text p _ => singleQuotedCharacter_reads _ text p)
    (fun text p _ => singleQuotedCharacter_reads _ text p)
    (fun text q _ _ => singleQuotedCharacter_abreast p.length text q) ?_) fun _ _ => .here .done)
  -- the quote that is missing at the end is reported by the next step
  rintro _ b s t ⟨⟨text, rfl⟩, q, hs, hend⟩
  have hstep : Ensures (State.At S.first q []) (repeating (singleQuotedCharacter p.length) text)
      (S.pairing.Astray Never) :=
    repeating_astray (.peekEnd hend (.astray_reportToReach S.tail_ne_nil))
  exact .moot hstep hs

/-! ## Texts and paths -/

theorem textFrom_abreast (hrole : role.Seamless S) {c : Char} (hc : isBlank c = false)
    (p : List Char) :
    Abreast S (S.Beside (c :: p) []) (textFrom role c) (TextApart S role id (·.isSome = true)) := by
  refine .ite ?_ fun _ => .ite ?_ fun _ => .ite ?_ fun _ => ?_
  · rintro rfl
    exact .call (doubleQuotedText_abreast hrole p) fun _ _ => .done
  · rintro rfl
    exact .call (singleQuotedText_abreast p) fun _ _ => .done
  · rintro rfl
    exact .call (blockText_abreast p) fun _ _ => .done
  · exact .putBack (ne_newline_of_visible hc) (unquotedText_abreast hrole p)

theorem text_abreast (hrole : role.Seamless S) (p : List Char) :
    Abreast S (S.Beside p []) (text role) (TextApart S role id (·.isSome = true)) := by
  refine .peekOnLine .done (fun b hb => ?_) fun b c hc => .accept ?_
  · refine .ahead (X := fun r s => r = none ∧ s.Rests S.first [])
      (fun s hs => ⟨rfl, rests_of_stands hb hs⟩) (.accept textFrom_semicolon) lineBlanks_nil ?_
    rintro _ _ s t ⟨rfl, hs⟩ rfl ht
    exact .inl ⟨rfl, hs, ht⟩
  · rw [List.append_nil]
    exact textFrom_abreast hrole hc (b ++ p)

/-- What the first run does in front of the parenthesis. -/
theorem Ensures.closes {g : Grammar Nat β} {Q : β → State Nat → Prop}
    (h : ∀ q, S.first.text[q.length]? = some ')' →
      Ensures (fun s => s.At S.first q [] ∧ ∀ s', s'.At S.first q [] → S.Closes s') g Q) :
    Ensures S.Closes g Q := by
  rintro s ⟨hgroup, hends, q, hs, hc⟩
  exact h q hc s ⟨hs, fun s' hs' => ⟨hgroup, hends, q, hs', hc⟩⟩

theorem pathPoint_closes (segments : List (Text (Span Nat))) :
    Ensures S.Closes (pathPoint segments) fun next s => next = .stop segments ∧ S.Closes s := by
  refine .closes fun q hc s ⟨hs, hcloses⟩ => ?_
  have hpoint : Ensures (State.At S.first q []) (pathPoint segments) fun next s =>
      next = .stop segments ∧ s.At S.first q [] := by
    refine .peekOnLineKnown hc (by decide) (.ite (fun h => absurd h (by decide)) fun _ => ?_)
    exact .retreat (.pure fun _ hs => ⟨rfl, hs⟩)
  obtain ⟨hstop, hs'⟩ := hpoint s hs
  exact ⟨hstop, hcloses _ hs'⟩

/-- The first run ends a path, and so does the second unless the first is stranded. -/
def PathApart (S : Seam) (a b : Next (List (Text (Span Nat)))) (s t : State Nat) : Prop :=
  ∃ x, a = .stop x ∧ (Stranded S.pairing s ∨
    ∃ y, b = .stop y ∧ (Landed S id x y s t ∨ Parts S (· ≠ []) x y s t))

theorem pathPoint_abreast (segments : List (Text (Span Nat))) (p : List Char) :
    Abreast S (S.Beside p []) (pathPoint segments) Nowhere :=
  .peekOnLineSame (if_neg (by decide)) .done fun _ _ _ =>
    .ite (fun _ => .accept .done) fun _ => .retreat .done

theorem pathSegment_abreast (segments : List (Text (Span Nat))) (p : List Char) :
    Abreast S (S.Beside p []) (pathSegment segments) (PathApart S) := by
  refine .peekOnLine .done (fun b hb => ?_) fun b c _ =>
    .retreat (.ite (fun _ => .done) fun _ => ?_)
  · refine .ahead (X := fun next s => next = .stop segments ∧ s.Rests S.first [])
      (R := fun next => next = .stop segments) (fun s hs => ⟨rfl, rests_of_stands hb hs⟩)
      (.retreat (.no (by decide) ?_)) lineBlanks_nil ?_
    · rw [List.append_nil, List.reverse_cons, List.append_assoc, List.singleton_append]
      refine .call (text_semicolon hb.reverse) ?_
      rintro _ q rfl
      exact .done rfl
    · rintro _ _ s t ⟨rfl, hs⟩ rfl ht
      exact ⟨segments, rfl, .inr ⟨segments, rfl, .inl ⟨rfl, hs, ht⟩⟩⟩
  · -- the runs part in the text of the segment or, if they read it side by side, behind it
    refine .callStray (text_abreast Role.key_seamless p) (fun a b => ?_) fun r q => ?_
    · rintro s t (hlanded | ⟨-, hstranded⟩ | hparts)
      · obtain rfl : a = b := hlanded.1
        cases a with
        | none => exact .apart ⟨_, rfl, .inr ⟨_, rfl, .inl ⟨rfl, hlanded.2⟩⟩⟩
        | some segment =>
          exact Apart.landed (pathPoint_idles (segment :: segments)) (pathPoint_idles _)
            (fun x y s t _ hx hy h => ⟨_, hx, .inr ⟨_, hy, .inl ⟨rfl, h⟩⟩⟩) s t hlanded
      · cases a with
        | none => exact .apart ⟨_, rfl, .inl hstranded⟩
        | some segment =>
          exact .strays (pathPoint_astray S.tail_ne_nil (segment :: segments)) hstranded
            fun _ _ ⟨x, hx, h⟩ => ⟨x, hx, .inl h⟩
      · obtain ⟨hs, hsome, ht⟩ := hparts
        obtain ⟨segment, rfl⟩ := Option.isSome_iff_exists.mp hsome
        obtain ⟨hstop, ht'⟩ := (pathPoint_idles (segment :: segments)).rests (.inr ⟨_, rfl⟩) t ht
        have hne := List.cons_ne_nil segment segments
        cases a with
        | none => exact .apart ⟨_, rfl, .inr ⟨_, hstop, .inr ⟨hs, hne, ht'⟩⟩⟩
        | some first =>
          obtain ⟨hfirst, hs'⟩ := pathPoint_closes (first :: segments) s hs
          exact .apart ⟨_, hfirst, .inr ⟨_, hstop, .inr ⟨hs', hne, ht'⟩⟩⟩
    · cases r with
      | none => exact .done
      | some segment => exact (pathPoint_abreast _ q).tail

/-- The same without places. -/
def unplaced : Span Nat → Span Unit :=
  Span.map fun _ => ()

theorem path_abreast (p : List Char) :
    Abreast S (S.Beside p []) path
      (TextApart S .key (Option.map (KeyPath.mapMarks unplaced)) (·.isSome = true)) := by
  refine .here (.callStray (repeating_abreast (I := PathWithin S.first p.length)
    (J := PathWithin S.second p.length)
    (E := TextApart S .key id (· ≠ [])) (Nat.le_refl _) (Nat.le_refl _)
    (fun _ _ h => pathSegment_reads h) (fun _ _ h => pathSegment_reads h)
    (fun segments q _ _ => pathSegment_abreast segments q) ?_) (fun x y => ?_) fun segments q =>
      .ite (fun _ => .done) fun _ => .here .done)
  · rintro _ b s t ⟨x, rfl, hstranded | ⟨y, rfl, h⟩⟩
    · exact .apart (.strands ⟨rfl, hstranded⟩)
    · rcases h with hlanded | hparts
      · exact .apart (.landed hlanded)
      · exact .apart (.parts hparts)
  · rintro s t (⟨hsame, hover⟩ | hstranded | ⟨hs, hne, ht⟩)
    · obtain rfl : x = y := hsame
      by_cases hx : x.isEmpty = true
      · simp only [if_pos hx]
        exact .apart (.landed ⟨rfl, hover⟩)
      · simp only [if_neg hx]
        exact .apart (.landed ⟨rfl, hover⟩)
    · refine .strays (X := fun _ => Role.key.Strands S.pairing) ?_ hstranded
        fun _ _ h => .inr (.inl h)
      exact .ite (fun _ => .astray_pure S.tail_ne_nil fun _ h => h) fun _ _ h =>
        .inr ⟨S.tail_ne_nil, h⟩
    · have hy : ¬y.isEmpty = true := fun h => hne (List.isEmpty_iff.mp h)
      simp only [if_neg hy]
      by_cases hx : x.isEmpty = true
      · simp only [if_pos hx]
        exact .apart (.parts ⟨hs, rfl, ht⟩)
      · simp only [if_neg hx]
        exact .apart (.parts ⟨hs, rfl, ht⟩)

/-! ## Substitutions -/

theorem substitutionEnd_abreast (start : Nat) (p : List Char) :
    Abreast S (S.Beside p []) (substitutionEnd start) Nowhere := by
  refine .peekVisible (fun b _ => ?_) fun b c _ => .ite (fun _ => .last (.accept .done)) fun _ =>
    .retreat (.last .reportToHere)
  exact .noticed (Ensures.astray_reportToReach (f := pure) S.tail_ne_nil)

/-- Where nothing but blanks is left, a substitution is not closed. -/
theorem substitutionEnd_rests (start : Nat) :
    Ensures (State.Rests S.first []) (substitutionEnd start) (S.pairing.Astray Never) := by
  rintro s ⟨q, b, hb, hs⟩
  rw [List.append_nil] at hs
  have hend : Ahead S.first q [] b (substitutionEnd start) (S.pairing.Astray Never) :=
    .peekVisibleEnd (fun x hx => (hb x hx).1) fun s hs =>
      Ensures.astray_reportToReach (P := fun _ => True) (f := pure) S.tail_ne_nil s trivial
  exact hend s hs

/-- The second run takes the dollar sign in front of the semicolon for the start
of a substitution. -/
theorem substitutionFrom_abreast (hgroup : S.first.inGroup = false) (start : Nat) (spread : Bool)
    (p : List Char) :
    Abreast S (S.Beside ('$' :: p) []) (substitutionFrom start spread) Nowhere := by
  refine .peekOnLine .done (fun b hb => ?_) fun b c _ => .ite (fun _ => .retreat .reportToReach)
    fun _ => .accept ?_
  · refine .slipped fun s t hs => ⟨_, List.mem_cons_self, .inr ⟨rfl, ?_⟩⟩
    have htext : S.first.text.reverse = b ++ '$' :: p := by simp [← hs.first.text]
    rw [Seam.EndsIn, htext]
    exact firstVisible_append (fun x hx => (hb x hx).1) (by decide)
  · refine .callStray (path_abreast _) (fun x y => ?_) fun path q =>
      .call (substitutionEnd_abreast start q) fun _ q => .here .done
    rintro s t (⟨-, hs, ht⟩ | ⟨-, hstranded⟩ | ⟨⟨hin, -⟩, -⟩)
    · exact .moot (.astray (substitutionEnd_rests start) fun _ _ _ h => h.elim) hs
    · exact .moot (.astray (substitutionEnd_astray S.tail_ne_nil start) fun _ _ _ h => h.elim)
        hstranded
    · rw [hgroup] at hin
      cases hin

theorem substitution_abreast (hgroup : S.first.inGroup = false) (p : List Char) :
    Abreast S (S.Beside ('$' :: p) []) (substitution false) Nowhere :=
  .placeOf (by decide) (substitutionFrom_abreast hgroup p.length false p)

theorem spreadSubstitution_abreast (hgroup : S.first.inGroup = false) (p : List Char) :
    Abreast S (S.Beside ('$' :: p) []) (substitution true) Nowhere :=
  .placeOf (by decide) (.beforeAll (by simp) (substitutionFrom_abreast hgroup _ true p))

theorem Role.value_seamless (hgroup : S.first.inGroup = false) :
    Role.Seamless S (.value (substitution false)) where
  substitution := substitution_abreast hgroup
  first_reads := Role.value_reads
  second_reads := Role.value_reads

/-- In a value, nothing is stranded, and there is no group to close. -/
theorem valueText_abreast (hgroup : S.first.inGroup = false) (p : List Char) :
    Abreast S (S.Beside p []) valueText (Landed S id) := by
  refine (text_abreast (Role.value_seamless hgroup) p).weaken ?_
  rintro a b s t (hlanded | ⟨hkey, -⟩ | ⟨⟨hin, -⟩, -⟩)
  · exact hlanded
  · cases hkey
  · rw [hgroup] at hin
    cases hin

end Grammar

end Diagram
