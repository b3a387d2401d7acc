import Diagram.Proofs.Order.Basic

/-!
The problems of texts, paths and substitutions are listed in order. Each is noticed behind the
character that it starts at, so that none of them starts where reading has come to.
-/
namespace Diagram.Grammar

variable {F : Frame Nat} {m n : Nat} {p : List Char}

/-! ## Blocks -/

theorem blockComment_listing (hF : F.meter = .index) (hm : m ≤ p.length) :
    Listing (Listed m p.length) (State.At F ('"' :: '"' :: '"' :: p) []) blockComment
      fun _ => Listed m := by
  refine .here hF (.beforeAll (n := p.length) hF (by simp) rfl ?_)
  refine .nested (.still quiet_commentContent) (commentContent_reads _) fun content q hq _ => ?_
  simp only [List.length_cons] at hq
  refine .next (.whenever (fun _ => ?_) fun _ _ h => h.mono (Nat.le_refl m) (by omega))
    (.whenever_stays .reportToReach_stays) (.here hF (.done (Nat.le_refl _)))
  exact .last (.reportToReach hF (fun _ _ _ h => h.notice hm (by omega) (.inr (by omega)))
    (.pure fun _ h => h))

theorem blockText_listing (hF : F.meter = .index) (hm : m ≤ p.length) :
    Listing (Listed m p.length) (State.At F ('|' :: p) []) blockText fun _ => Listed m := by
  refine .placeOf hF (by decide) ?_
  refine .nested (.still quiet_block) (block_reads _) fun block q hq _ => ?_
  simp only [List.length_cons] at hq
  refine .next (.whenever (fun _ => ?_) fun _ _ h => h.mono (Nat.le_refl m) (by omega))
    (.whenever_stays .reportToReach_stays) (.here hF (.done (Nat.le_refl _)))
  exact .last (.reportToReach hF (fun _ _ _ h => h.notice hm (by omega) (.inr (by omega)))
    (.pure fun _ h => h))

/-! ## Unquoted text -/

/-- What a text in the given role may hold is read as it should be, and its problems are listed in
order. -/
structure Role.Listing (F : Frame Nat) (role : Role Nat) : Prop where
  reads : role.Reads F
  listing : ∀ {m : Nat} {p : List Char}, m ≤ p.length → Grammar.Listing (Listed m p.length)
    (State.At F ('$' :: p) []) role.substitution? fun _ => Listed m

theorem Role.key_listing : Role.Listing F .key :=
  ⟨Role.key_reads, fun _ => .done (Nat.le_succ _)⟩

theorem unquotedEscape_listing (hF : F.meter = .index) (u : Unquoted Nat) (hm : m ≤ p.length) :
    Listing (Listed m p.length) (State.At F ('\\' :: p) []) (unquotedEscape u)
      fun _ => Listed m := by
  refine .read ?_ fun c => .ite (fun _ => ?_) fun _ => .here hF (.done ?_)
  · exact .placeOf hF (by decide) (.reportToReach hF
      (fun _ _ _ h => h.notice hm (by omega) (.inr (Nat.lt_succ_self _))) (.done (Nat.le_refl _)))
  · refine .peekOnLine (.done ?_) fun b x hx =>
      .accept (.putBack (ne_newline_of_visible hx) (.done ?_))
    · simp
      omega
    · simp
      omega
  · simp
    omega

variable {role : Role Nat}

theorem unquotedBehind_listing (hF : F.meter = .index) (hrole : role.Listing F) (u : Unquoted Nat)
    (c : Char) (hm : m ≤ p.length) :
    Listing (Listed m p.length) (State.At F (c :: p) []) (unquotedBehind role u c)
      fun _ => Listed m := by
  refine .here hF ?_
  by_cases hdollar : c = '$'
  · subst hdollar
    refine .call (hrole.listing hm) (hrole.reads p) fun r q _ _ => ?_
    cases r with
    | none => exact .done (Nat.le_refl _)
    | some s => exact .here hF (.done (Nat.le_refl _))
  · rw [if_neg hdollar]
    by_cases hescape : c = '\\'
    · subst hescape
      exact unquotedEscape_listing hF _ hm
    · exact .ite (fun h => absurd h hescape) fun _ => .done (Nat.le_succ _)

theorem groupEnd_listing (hF : F.meter = .index) (u : Unquoted Nat) (c : Char) {l : List Char} :
    Listing (Listed m p.length) (State.At F p l) (groupEnd u c) fun _ => Listed m := by
  refine .peekOnLine (.done (Nat.le_refl _)) fun b x _ => .retreat (.ite (fun _ =>
    .done (Nat.le_refl _)) fun _ =>
      .peek (.accept (.here hF (.done ?_))) fun x => .accept (.here hF (.done ?_)))
  · simp
  · simp

theorem unquotedCharacter_listing (hF : F.meter = .index) (hrole : role.Listing F)
    (u : Unquoted Nat) (hm : m ≤ p.length) :
    Listing (Listed m p.length) (State.At F p []) (unquotedCharacter role u) fun _ => Listed m := by
  refine .peek (.done (Nat.le_refl _)) fun c => .inGroup ?_
  refine .ite (fun _ => groupEnd_listing hF u c) fun _ =>
    .ite (fun _ => .retreat (.done (Nat.le_refl _))) fun _ => .ite (fun _ => ?_) fun _ =>
    .accept (unquotedBehind_listing hF hrole u c hm)
  refine .known (l := []) fun hc => .peek (.done (Nat.le_refl _)) fun x => .retreat
    (.ite (fun _ => .done (Nat.le_refl _)) fun _ => ?_)
  exact .peekKnown hc (.accept (unquotedBehind_listing hF hrole u c hm))

theorem unquotedText_listing (hF : F.meter = .index) (hrole : role.Listing F) (hm : m ≤ p.length) :
    Listing (Listed m p.length) (State.At F p []) (unquotedText role) fun _ => Listed m := by
  have hempty : Unquoted.Within F p.length ⟨.empty, F.mark p.length⟩ p.length :=
    ⟨p.length, Nat.le_refl _, Nat.le_refl _, rfl, Nat.le_refl _⟩
  have hreads := fun u (q : List Char) (hu : Unquoted.Within F p.length u q.length) =>
    unquotedCharacter_reads hrole.reads hu
  refine .within fun hlength => .here hF ?_
  rw [Listing.mark_index hF (by simpa using hlength)] at hempty
  refine .call (.looping hreads (fun u q hq _ => unquotedCharacter_listing hF hrole u (by omega))
    hempty fun _ h => h) (repeating_ensures hreads hempty) fun u q _ _ => .ite ?_ fun _ => ?_
  · exact fun _ => .done (Nat.le_refl _)
  · exact .done (Nat.le_refl _)

/-! ## Quoted text -/

theorem doubleQuotedEscape_listing (hF : F.meter = .index) (g : Gathered Nat) (hn : n ≤ p.length)
    (hm : m ≤ p.length) :
    Listing (Listed m p.length) (State.At F ('\\' :: p) []) (doubleQuotedEscape n g)
      fun _ => Listed m := by
  refine .read ?_ fun c => .done (by simp; omega)
  have hnotice : ∀ problems stop, ('\\' :: p).length ≤ stop → Listed m p.length problems →
      Listed m (p.length + 1) (⟨.unfinishedEscape, .place p.length, stop⟩ :: problems) :=
    fun _ _ _ h => h.notice hm (Nat.le_succ _) (.inr (Nat.lt_succ_self _))
  exact .placeOf hF (by decide) (.reportToReach hF hnotice (.closeToReach hF (fun _ => rfl)
    (Nat.le_succ_of_le hm) (Nat.le_succ _) (.inr (Nat.lt_succ_of_le hn)) (.done (Nat.le_refl _))))

theorem doubleQuotedBehind_listing (hF : F.meter = .index) (hrole : role.Listing F)
    (g : Gathered Nat) (c : Char) (hn : n ≤ p.length) (hm : m ≤ p.length) :
    Listing (Listed m p.length) (State.At F (c :: p) []) (doubleQuotedBehind role n g c)
      fun _ => Listed m := by
  by_cases hdollar : c = '$'
  · subst hdollar
    refine .call (hrole.listing hm) (hrole.reads p) fun r q _ _ => ?_
    cases r <;> exact .done (Nat.le_refl _)
  · rw [doubleQuotedBehind, if_neg hdollar]
    refine .ite (fun _ => .done (Nat.le_succ _)) fun _ => ?_
    by_cases hescape : c = '\\'
    · subst hescape
      exact doubleQuotedEscape_listing hF g hn hm
    · exact .ite (fun h => absurd h hescape) fun _ => .done (Nat.le_succ _)

theorem doubleQuotedCharacter_listing (hF : F.meter = .index) (hrole : role.Listing F)
    (g : Gathered Nat) (hn : n < p.length) (hm : m ≤ p.length) :
    Listing (Listed m p.length) (State.At F p []) (doubleQuotedCharacter role n g)
      fun _ => Listed m := by
  refine .peek ?_ fun c => .ite (fun _ => .retreat ?_) fun _ =>
    .accept (doubleQuotedBehind_listing hF hrole g c (Nat.le_of_lt hn) hm)
  · exact .closeToReach hF (fun _ => rfl) hm (Nat.le_succ _) (.inr hn) (.done (Nat.le_refl _))
  · exact .closeToHere hF (fun _ => rfl) hm (Nat.le_succ _) (.inr hn) (.done (Nat.le_refl _))

theorem doubleQuotedText_listing (hF : F.meter = .index) (hrole : role.Listing F)
    (hm : m ≤ p.length) :
    Listing (Listed m p.length) (State.At F ('"' :: p) []) (doubleQuotedText role)
      fun _ => Listed m := by
  have hempty : Gathered.empty.Within F.cover p.length (p.length + 1) := Nat.le_succ p.length
  have hreads : ∀ g q, Gathered.Within F.cover p.length g q.length →
      Ensures (State.At F q []) (doubleQuotedCharacter role p.length g)
        (Steps F q.length (Gathered.Within F.cover p.length) (Gathered.Within F.cover p.length)) :=
    fun _ _ hg => doubleQuotedCharacter_reads hrole.reads hg
  refine .placeOf hF (by decide) (.call (.looping hreads (fun g q hq _ => ?_) hempty fun _ h =>
    h.mono (Nat.le_refl m) (Nat.le_succ _)) (repeating_ensures hreads hempty)
    fun g q _ _ => .here hF (.done (Nat.le_refl _)))
  rw [List.length_cons] at hq
  exact doubleQuotedCharacter_listing hF hrole g (by omega) (by omega)

/-- Nothing is noticed in a single quoted text before it is given up. -/
theorem singleQuotedCharacter_listing (hF : F.meter = .index) (text : List Char) (hm : m ≤ n)
    (hn : n < p.length) :
    Listing (Listed m n) (State.At F p []) (singleQuotedCharacter n text)
      (Listing.Turns (fun _ => Listed m n) fun _ => Listed m) := by
  have hbehind : n ≤ ('\'' :: p).length := Nat.le_succ_of_le (Nat.le_of_lt hn)
  refine .peek ?_ fun c => .ite (fun _ => .retreat ?_) fun _ => .accept (.ite (fun _ => ?_) fun _ =>
    .ite (fun _ => ?_) fun _ => .pure fun _ h => h)
  · exact .reportToReach hF (fun _ _ _ h => h.notice hm (by omega) (.inr hn)) (.pure fun _ h => h)
  · exact .reportToHere hF (fun _ h => h.notice hm (by omega) (.inr hn)) (.pure fun _ h => h)
  · exact .peek (.done hbehind) fun x => .ite (fun _ => .accept (.pure fun _ h => h))
      fun _ => .retreat (.done hbehind)
  · exact .peek (.pure fun _ h => h) fun x => .ite (fun _ => .accept (.pure fun _ h => h))
      fun _ => .retreat (.pure fun _ h => h)

theorem singleQuotedText_listing (hF : F.meter = .index) (hm : m ≤ p.length) :
    Listing (Listed m p.length) (State.At F ('\'' :: p) []) singleQuotedText fun _ => Listed m := by
  have hreads := fun text (q : List Char) (_ : True) =>
    singleQuotedCharacter_reads (F := F) p.length text q
  refine .placeOf hF (by decide) (.call (.repeating (p := '\'' :: p)
    (S := fun _ => Listed m) (H := fun _ => Listed m p.length) (I := fun _ _ => True) hreads
    (fun text q hq _ => singleQuotedCharacter_listing hF text hm hq) trivial fun _ h => h)
    (repeating_ensures (I := fun _ _ => True) hreads trivial)
    fun text q _ _ => .here hF (.done (Nat.le_refl _)))

/-! ## Texts, paths and substitutions -/

theorem textFrom_listing (hF : F.meter = .index) (hrole : role.Listing F) {c : Char}
    (hc : isBlank c = false) (hm : m ≤ p.length) :
    Listing (Listed m p.length) (State.At F (c :: p) []) (textFrom role c) fun _ => Listed m := by
  refine .ite ?_ fun _ => .ite ?_ fun _ => .ite ?_ fun _ => ?_
  · rintro rfl
    exact .mapped (doubleQuotedText_listing hF hrole hm)
  · rintro rfl
    exact .mapped (singleQuotedText_listing hF hm)
  · rintro rfl
    exact .mapped (blockText_listing hF hm)
  · exact .putBack (ne_newline_of_visible hc) (unquotedText_listing hF hrole hm)

theorem text_listing (hF : F.meter = .index) (hrole : role.Listing F) (hm : m ≤ p.length) :
    Listing (Listed m p.length) (State.At F p []) (text role) fun _ => Listed m := by
  refine .peekOnLine (.done (Nat.le_refl _)) fun b c hc => .accept ?_
  refine (textFrom_listing hF hrole hc ?_).given fun _ h => h.mono (Nat.le_refl m) ?_
  · simp
    omega
  · simp

theorem pathSegment_listing (hF : F.meter = .index) (segments : List (Text (Span Nat)))
    (hm : m ≤ p.length) :
    Listing (Listed m p.length) (State.At F p []) (pathSegment segments) fun _ => Listed m := by
  refine .peekOnLine (.done (Nat.le_refl _)) fun b c _ => .retreat (.ite (fun _ =>
    .done (Nat.le_refl _)) fun _ => ?_)
  refine .call (text_listing hF Role.key_listing hm) (text_reads Role.key_reads p) fun r q _ _ => ?_
  cases r with
  | none => exact .done (Nat.le_refl _)
  | some segment =>
    exact .peekOnLine (.done (Nat.le_refl _)) fun b c _ => .ite
      (fun _ => .accept (.done (by simp; omega))) fun _ => .retreat (.done (Nat.le_refl _))

theorem path_listing (hF : F.meter = .index) (hm : m ≤ p.length) :
    Listing (Listed m p.length) (State.At F p []) path fun _ => Listed m := by
  have hreads := fun segments (q : List Char) (h : PathWithin F p.length segments q.length) =>
    pathSegment_reads h
  refine .here hF (.call (.looping hreads (fun segments q hq _ =>
    pathSegment_listing hF segments (by omega)) (Nat.le_refl _) fun _ h => h)
    (repeating_ensures hreads (Nat.le_refl _)) fun segments q _ _ => .ite ?_ fun _ => ?_)
  · exact fun _ => .done (Nat.le_refl _)
  · exact .here hF (.done (Nat.le_refl _))

theorem substitutionEnd_listing (hF : F.meter = .index) (hn : n < p.length) (hm : m ≤ p.length) :
    Listing (Listed m p.length) (State.At F p []) (substitutionEnd n) fun _ => Listed m := by
  refine .peekVisible (.last ?_) fun b c _ => .ite (fun _ => .last (.accept (.done ?_))) fun _ =>
    .retreat (.last ?_)
  · exact .closeToReach hF (fun _ => rfl) hm (Nat.le_succ _) (.inr hn) (.done (Nat.le_refl _))
  · simp
    omega
  · exact .closeToHere hF (fun _ => rfl) hm (Nat.le_succ _) (.inr hn) (.done (Nat.le_refl _))

/-- A substitution starts in front of its dollar sign or of the points in front of that, and nothing
has been noticed behind where it starts. -/
theorem substitutionFrom_listing (hF : F.meter = .index) (spread : Bool) (hm : m ≤ n)
    (hn : n < p.length) :
    Listing (Listed m n) (State.At F p []) (substitutionFrom n spread) fun _ => Listed m := by
  refine .peekOnLine (.done (Nat.le_of_lt hn)) fun b c _ => .ite (fun _ => .retreat ?_) fun _ =>
    .accept ?_
  · exact .reportToReach hF (fun _ _ _ h => h.notice hm (Nat.le_succ _) (.inr hn))
      (.done (Nat.le_refl _))
  · refine .call ((path_listing hF ?_).given fun _ h => h.mono (Nat.le_refl m) ?_) (path_reads _)
      fun path q hq _ => ?_
    · simp
      omega
    · simp
      omega
    · simp only [List.append_nil, List.length_append, List.length_cons] at hq
      exact .call (substitutionEnd_listing hF (by omega) (by omega)) (substitutionEnd_reads _ q)
        fun _ _ _ _ => .here hF (.done (Nat.le_refl _))

theorem substitution_listing (hF : F.meter = .index) (hm : m ≤ p.length) :
    Listing (Listed m p.length) (State.At F ('$' :: p) []) (substitution false) fun _ => Listed m :=
  .placeOf hF (by decide) (substitutionFrom_listing hF false hm (Nat.lt_succ_self _))

theorem spreadSubstitution_listing (hF : F.meter = .index) (hm : m ≤ p.length) :
    Listing (Listed m p.length) (State.At F ('$' :: '.' :: '.' :: '.' :: p) []) (substitution true)
      fun _ => Listed m := by
  refine .placeOf hF (by decide) (.beforeAll (n := p.length) hF (by simp) rfl ?_)
  refine substitutionFrom_listing hF true hm ?_
  simp only [List.length_cons]
  omega

theorem Role.value_listing (hF : F.meter = .index) : Role.Listing F (.value (substitution false)) :=
  ⟨Role.value_reads, substitution_listing hF⟩

theorem valueText_listing (hF : F.meter = .index) (hm : m ≤ p.length) :
    Listing (Listed m p.length) (State.At F p []) valueText fun _ => Listed m :=
  text_listing hF (Role.value_listing hF) hm

end Diagram.Grammar
