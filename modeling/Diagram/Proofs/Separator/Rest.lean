import Diagram.Proofs.Separator.Steps
import Diagram.Proofs.Sound.Container

/-!
Where a line is over: what may follow on a line does not follow in front of a semicolon, just as it
does not follow at the end of the text. Both runs of a seam then idle until the line is left.
-/
namespace Diagram.Grammar

variable {α β γ σ : Type} {R : β → Prop}

/-- Blanks of the line are ahead, and then a semicolon or nothing. -/
def LineOver (u : List Char) : Prop :=
  ∃ b, LineBlanks b ∧ (u = b ∨ ∃ v, u = b ++ ';' :: v)

/-- Where the line is over, `g` stays and comes to a result with `R`. -/
def Idles (g : Grammar Nat β) (R : β → Prop) : Prop :=
  ∀ (F : Frame Nat) p u, LineOver u → Ahead F p [] u g (Arrives F u R)

/-! ## Rules -/

theorem Ahead.peekOver {F : Frame Nat} {p u : List Char} {f : Option Char → Grammar Nat β}
    {g : Grammar Nat β} {Q : β → State Nat → Prop} (hu : LineOver u)
    (hsemicolon : f (some ';') = Grammar.retreat >>= fun _ => g)
    (hnone : Ahead F p [] u (f none) Q) (hother : Ahead F p [] u g Q) :
    Ahead F p [] u (Grammar.peekOnLine >>= f) Q := by
  obtain ⟨b, hb, rfl | ⟨v, rfl⟩⟩ := hu
  · rw [Grammar.peekOnLine, bind_assoc]
    exact .peekVisibleEnd (fun x hx => (hb x hx).1) hnone
  · refine .peekOnLine hb (by decide) ?_
    rw [hsemicolon]
    exact .retreat (by simpa using hother)

namespace Idles

theorem done {b : β} (h : R b) : Idles (pure b) R :=
  fun _ _ _ _ => .done h

theorem bind {g : Grammar Nat α} {f : α → Grammar Nat β} {R' : α → Prop} (hg : Idles g R')
    (hf : ∀ a, R' a → Idles (f a) R) : Idles (g >>= f) R :=
  fun F p u hu => .call (hg F p u hu) fun a q ha => hf a ha F q u hu

theorem mono {g : Grammar Nat β} {R' : β → Prop} (hg : Idles g R) (h : ∀ b, R b → R' b) :
    Idles g R' :=
  fun F p u hu => (hg F p u hu).mono h

/-- A semicolon that is looked at is left unread. -/
theorem peekOnLine {f : Option Char → Grammar Nat β} {g : Grammar Nat β}
    (hsemicolon : f (some ';') = Grammar.retreat >>= fun _ => g) (hnone : Idles (f none) R)
    (hother : Idles g R) : Idles (Grammar.peekOnLine >>= f) R :=
  fun F p u hu => .peekOver hu hsemicolon (hnone F p u hu) (hother F p u hu)

theorem peekOnLineSame {f : Option Char → Grammar Nat β}
    (hsemicolon : f (some ';') = Grammar.retreat >>= fun _ => f none) (hnone : Idles (f none) R) :
    Idles (Grammar.peekOnLine >>= f) R :=
  .peekOnLine hsemicolon hnone hnone

theorem repeating {step : σ → Grammar Nat (Next σ)} {g : σ} {R : σ → Prop}
    (h : Idles (step g) fun next => ∃ g', next = .stop g' ∧ R g') :
    Idles (Grammar.repeating step g) R :=
  fun F p u hu => .stop (h F p u hu)

theorem rests {g : Grammar Nat β} (h : Idles g R) {F : Frame Nat} {rest : List Char}
    (hrest : rest = [] ∨ ∃ v, rest = ';' :: v) :
    Ensures (State.Rests F rest) g fun b s => R b ∧ s.Rests F rest := by
  rintro s ⟨q, b, hb, hs⟩
  have hover : LineOver (b ++ rest) := by
    refine ⟨b, hb, hrest.imp (fun hnil => ?_) fun ⟨v, hv⟩ => ⟨v, ?_⟩⟩
    · rw [hnil, List.append_nil]
    · rw [hv]
  obtain ⟨hR, q', hs'⟩ := h F q _ hover s hs
  exact ⟨hR, q', b, hb, hs'⟩

end Idles

section

variable {S : Seam}

/-- Where both runs have landed, they stay there while they idle. -/
theorem Apart.landed {m : α → γ} {a b : α} {g₁ g₂ : Grammar Nat β} {R₁ R₂ : β → Prop}
    {E : β → β → State Nat → State Nat → Prop} (h₁ : Idles g₁ R₁) (h₂ : Idles g₂ R₂)
    (hE : ∀ x y s t, m a = m b → R₁ x → R₂ y → S.Over s t → E x y s t) :
    Apart S (Landed S m a b) g₁ g₂ E := by
  rintro s t ⟨hm, hs, ht⟩
  obtain ⟨hR₁, hs'⟩ := h₁.rests (.inl rfl) s hs
  obtain ⟨hR₂, ht'⟩ := h₂.rests (.inr ⟨_, rfl⟩) t ht
  exact .apart (hE _ _ _ _ hm hR₁ hR₂ ⟨hs', ht'⟩)

theorem lineBlanks_nil : LineBlanks [] := fun _ h => absurd h (by simp)

/-- With blanks of the line ahead, the first run has landed. -/
theorem rests_of_stands {p b : List Char} {s : State Nat} (hb : LineBlanks b)
    (h : s.Stands S.first p [] (b ++ []).reverse) : s.Rests S.first [] := by
  rw [List.append_nil] at h
  exact ⟨p, b.reverse, hb.reverse, (List.append_nil _).symm ▸ h⟩

/-- Where the first run finds nothing, and the second leaves the semicolon unread and idles. -/
theorem Apart.idle {p b : List Char} {a : β} {g : Grammar Nat β} {R : β → Prop}
    {E : β → β → State Nat → State Nat → Prop} (hb : LineBlanks b) (hg : Idles g R)
    (hE : ∀ y s t, R y → S.Over s t → E a y s t) :
    Apart S (S.Aside p (b ++ [])) (Pure.pure a) (Grammar.retreat >>= fun _ => g) E := by
  intro s t hs
  have hsecond : Ahead S.second p (';' :: (b ++ [])) S.behind (Grammar.retreat >>= fun _ => g)
      (Arrives S.second (b.reverse ++ ';' :: S.behind) R) := by
    refine .retreat ?_
    rw [List.append_nil, List.reverse_cons, List.append_assoc, List.singleton_append]
    exact hg _ _ _ ⟨_, hb.reverse, .inr ⟨_, rfl⟩⟩
  obtain ⟨hR, q, ht⟩ := hsecond t hs.second
  exact .apart (hE _ _ _ hR ⟨rests_of_stands hb hs.first, q, _, hb.reverse, ht⟩)

end

/-! ## Text in front of a semicolon -/

section

variable {F : Frame Nat} {role : Role Nat} {p u v b : List Char} {g : Unquoted Nat}

/-- Blanks at the end of an unquoted text do not belong to it. -/
theorem unquotedCharacter_blank {x : Char} (hx : isBlank x = true) (hline : x ≠ '\n') :
    Ahead F p [] (x :: u) (unquotedCharacter role g) (Arrives F u fun next => ∃ g',
      next = .again g' ∧ g'.text.trimEnd = g.text.trimEnd ∧ g'.stop = g.stop) := by
  have hne : ∀ c, isBlank c = false → x ≠ c := by
    rintro c hc rfl
    rw [hx] at hc
    cases hc
  have hends : ¬endsUnquoted role x = true := by
    simp [endsUnquoted, hline, hne ';' rfl, hne '#' rfl, hne '{' rfl, hne '}' rfl, hne '[' rfl,
      hne ']' rfl, hne ':' rfl, hne '.' rfl, hne '<' rfl, hne '>' rfl]
  have hconnector : ¬(role.isKey && (x = '-' || x = '*')) = true := by
    simp [hne '-' rfl, hne '*' rfl]
  have hgroup : ¬(F.inGroup && x = ')') = true := by simp [hne ')' rfl]
  refine .peek (.inGroup (.no hgroup (.no hends (.no hconnector (.accept (.here ?_))))))
  simp only [if_neg (hne '$' rfl), pure_bind]
  refine .no (hne '\\' rfl) (.done ⟨_, rfl, ?_, ?_⟩)
  · simp [Gathered.trimEnd, Gathered.push, hx]
  · simp [hx]

/-- An unquoted text ends where the line is over. -/
theorem unquotedCharacters_over (hb : LineBlanks b) (hu : u = [] ∨ ∃ v, u = ';' :: v) :
    Ahead F p [] (b ++ u) (repeating (unquotedCharacter role) g)
      (Arrives F u fun g' => g'.text.trimEnd = g.text.trimEnd ∧ g'.stop = g.stop) := by
  induction b generalizing p g with
  | nil =>
    refine .stop ?_
    rcases hu with rfl | ⟨v, rfl⟩
    · exact .peekEnd (.done ⟨g, rfl, rfl, rfl⟩)
    · have hends : endsUnquoted role ';' = true := by simp [endsUnquoted]
      refine .peek (.inGroup (.no (by simp) (.yes hends (.retreat (.done ⟨g, rfl, rfl, rfl⟩)))))
  | cons x b ih =>
    have hx := hb x (by simp)
    refine .again (unquotedCharacter_blank hx.1 hx.2) (by simp) fun g' q hg' => ?_
    refine (ih fun y hy => hb y (by simp [hy])).mono fun g'' hg'' => ?_
    exact ⟨hg''.1.trans hg'.1, hg''.2.trans hg'.2⟩

/-- A semicolon starts no text. -/
theorem textFrom_semicolon :
    Ahead F (';' :: p) [] v (textFrom role ';') (Arrives F (';' :: v) (· = none)) := by
  refine .no (by decide) (.no (by decide) (.no (by decide) (.putBack (by decide) (.here ?_))))
  refine .call (unquotedCharacters_over (b := []) (fun _ h => absurd h (by simp)) (.inr ⟨v, rfl⟩))
    fun g q hg => ?_
  have hempty : g.text.trimEnd.finish = [] := by
    rw [hg.1]
    rfl
  simp only [hempty]
  exact .done rfl

theorem text_semicolon (hb : LineBlanks b) :
    Ahead F p [] (b ++ ';' :: v) (text role) (Arrives F (';' :: v) (· = none)) :=
  .peekOnLine hb (by decide) (.accept textFrom_semicolon)

theorem path_semicolon (hb : LineBlanks b) :
    Ahead F p [] (b ++ ';' :: v) path (Arrives F (';' :: v) (· = none)) := by
  have hsegment : Ahead F p [] (b ++ ';' :: v) (pathSegment []) (Arrives F (';' :: v)
      fun next => ∃ segments, next = .stop segments ∧ segments = []) := by
    refine .peekOnLine hb (by decide) (.retreat (.no (by decide) ?_))
    rw [List.append_nil, List.reverse_cons, List.reverse_reverse, List.append_assoc,
      List.singleton_append]
    refine .call (text_semicolon hb) ?_
    rintro _ q rfl
    exact .done ⟨[], rfl, rfl⟩
  refine .here (.call (.stop hsegment) ?_)
  rintro _ q rfl
  exact .done rfl

end

/-! ## What does not follow on a line that is over -/

theorem pathPoint_idles (segments : List (Text (Span Nat))) :
    Idles (pathPoint segments) (· = .stop segments) :=
  .peekOnLineSame (if_neg (by decide)) (.done rfl)

theorem nextEdge_idles (chain : Chain Nat) : Idles (nextEdge chain) (· = .stop chain) :=
  .peekOnLineSame rfl (.done rfl)

theorem nextEdges_idles (chain : Chain Nat) : Idles (repeating nextEdge chain) (· = chain) :=
  .repeating ((nextEdge_idles chain).mono fun _ h => ⟨_, h, rfl⟩)

theorem edges_idles (source : Option (KeyPath (Span Nat))) : Idles (edges source) (· = []) := by
  refine .bind (nextEdges_idles _) ?_
  rintro _ rfl
  exact .done rfl

theorem trailingCharacter_idles (closing : Char) (u : Unit) :
    Idles (trailingCharacter closing u) (· = .stop ()) :=
  .peekOnLineSame (if_neg (by simp)) (.done rfl)

theorem trailingText_idles (typeName : Option String) (closing : Char) (fallback : Cause) :
    Idles (trailingText typeName closing fallback) fun _ => True := by
  have hrepeated : Idles (repeating (trailingCharacter closing) ()) fun _ => True :=
    .repeating ((trailingCharacter_idles closing ()).mono fun _ h => ⟨(), h, trivial⟩)
  refine fun F p u hu => .here fun s hs => ?_
  obtain ⟨-, q, hs'⟩ := hrepeated F p u hu s hs
  -- with the same ahead, reading stands where it started
  have hlength := congrArg List.length (hs.text.trans hs'.text.symm)
  have hsame : p.length = q.length := by simpa using hlength
  rw [bind_apply]
  refine Ahead.here (Q := Arrives F u fun _ => True) ?_ _ hs'
  rw [hsame, bne_self_eq_false]
  exact .done trivial

section

variable {value : Grammar Nat (Option (Value (Span Nat)))}

theorem mapBehind_idles (key : Key (Span Nat)) (scalar : Scalar (Span Nat)) :
    Idles (mapBehind value key scalar) (· = { key with value := some (.scalar scalar) }) :=
  .peekOnLineSame (if_neg (by decide)) (.done rfl)

theorem keyValue_idles (key : Key (Span Nat)) : Idles (keyValue value key) (· = key) :=
  .peekOnLineSame ((if_neg (by decide)).trans (if_neg (by decide))) (.done rfl)

theorem acceptBehind_idles {c : Char} (hc : c ≠ ';') : Idles (acceptBehind c) (· ≠ .found) :=
  .peekOnLine (if_neg hc.symm) (.done (by decide)) (.done (by decide))

theorem groupPath_idles (key : Key (Span Nat)) : Idles (groupPath key) (·.1 = key) := by
  refine .bind (acceptBehind_idles (by decide)) fun behind hbehind => ?_
  cases behind with
  | found => exact absurd rfl hbehind
  | other | lineEnd => exact .done rfl

theorem keyBehindPath_idles (key : Key (Span Nat)) : Idles (keyBehindPath value key) (· = key) :=
  .peekOnLine ((if_neg (by decide)).trans (if_neg (by decide))) (.done rfl) (keyValue_idles key)

end

end Diagram.Grammar
