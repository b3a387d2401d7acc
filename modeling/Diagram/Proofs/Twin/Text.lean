import Diagram.Proofs.Sound.Text
import Diagram.Proofs.Twin.Block

/-!
Texts, key paths and substitutions in two runs side by side. In a key, the first run ends an
unquoted text in front of a dash or a star at the end of its text, where the second run sees the new
line and reads on; every grammar that a key is read by reports what is left there, sooner or later.
-/
namespace Diagram

namespace Grammar

variable {π ρ : Type} {K : Pairing π} {p : List Char}

/-! ## Gathered in other places -/

/-- The same text, gathered in other places. -/
def Gathered.map (f : π → ρ) (g : Gathered π) : Gathered ρ :=
  ⟨g.pieces.map (Piece.mapMarks (Span.map f)), g.value, g.raw⟩

/-- The same unquoted text in other places. -/
def Unquoted.map (f : π → ρ) (u : Unquoted π) : Unquoted ρ :=
  ⟨u.text.map f, f u.stop⟩

namespace Gathered

variable (f : π → ρ) (g : Gathered π)

theorem map_flush : (g.map f).flush = g.flush.map f := by
  unfold Gathered.flush
  by_cases h : g.value.isEmpty
  · rw [if_pos h, if_pos (show (g.map f).value.isEmpty from h)]
  · rw [if_neg h, if_neg (show ¬(g.map f).value.isEmpty from h)]
    simp [Gathered.map, Piece.mapMarks]

theorem map_pushSubstitution (s : Substitution (Span π)) :
    (g.map f).pushSubstitution (s.mapMarks (Span.map f)) = (g.pushSubstitution s).map f := by
  rw [pushSubstitution, map_flush]
  rfl

theorem map_finish : (g.map f).finish = Piece.mapMarksAll (Span.map f) g.finish := by
  rw [finish, map_flush, finish, Piece.mapMarksAll_eq, List.map_reverse]
  rfl

end Gathered

/-! ## Unquoted text -/

/-- The parts that texts have in the two runs may hold the same substitutions. -/
structure Role.Twins (K : Pairing π) (role₁ : Role Nat) (role₂ : Role π) : Prop where
  isKey : role₂.isKey = role₁.isKey
  substitution : ∀ p, Alike K (Twin K ('$' :: p) []) role₁.substitution? role₂.substitution? Never
    (Meets K (Option.map (Substitution.mapMarks (Span.map K.place))))
  reads : role₁.Reads K.first

theorem Role.key_twins : Role.Twins K .key .key where
  isKey := rfl
  substitution _ := .done rfl
  reads := Role.key_reads

variable {role₁ : Role Nat} {role₂ : Role π}

theorem Role.Twins.endsUnquoted (h : Role.Twins K role₁ role₂) (c : Char) :
    Grammar.endsUnquoted role₂ c = Grammar.endsUnquoted role₁ c := by
  rw [Grammar.endsUnquoted, Grammar.endsUnquoted, h.isKey]

/-- A dash or a star is all that is left of the common text. -/
def Stranded (K : Pairing π) (s : State Nat) : Prop :=
  ∃ q c, s.At K.first q [] ∧ K.first.text.drop q.length = [c] ∧ (c = '-' ∨ c = '*')

/-- The same, which only texts in keys leave. -/
def Role.Strands (K : Pairing π) (role : Role Nat) (s : State Nat) : Prop :=
  role.isKey = true ∧ Stranded K s

theorem unquotedEscape_alike (u : Unquoted Nat) (p : List Char) :
    Alike K (Twin K ('\\' :: p) []) (unquotedEscape u) (unquotedEscape (u.map K.place)) Never
      (Meets K (Next.map (Unquoted.map K.place))) := by
  refine .read (fun _ => ?_) (fun htail => ?_) fun c => ?_
  · exact .placeOf (by decide) (.reportToReach fun _ => .done rfl)
  · exact .placeOf (by decide) (.astray_reportToReach htail)
  · refine .ite Iff.rfl (fun _ => ?_) fun _ => .here (.done rfl)
    refine .peekOnLine (.done rfl) fun b x hx => ?_
    exact .accept (.putBack (ne_newline_of_visible hx) (.done rfl))

theorem unquotedBehind_alike (hrole : Role.Twins K role₁ role₂) (u : Unquoted Nat) (c : Char)
    (p : List Char) :
    Alike K (Twin K (c :: p) []) (unquotedBehind role₁ u c)
      (unquotedBehind role₂ (u.map K.place) c) Never
      (Meets K (Next.map (Unquoted.map K.place))) := by
  have hstop : (if isBlank c then (u.map K.place).stop else K.place (c :: p).length) =
      K.place (if isBlank c then u.stop else (c :: p).length) := by
    split <;> rfl
  refine .here ?_
  rw [hstop]
  by_cases hdollar : c = '$'
  · subst hdollar
    refine .call (hrole.substitution p) fun r q => ?_
    cases r with
    | none => exact .done rfl
    | some s =>
      refine .here (.done ?_)
      simp only [Next.map, Unquoted.map, ← Gathered.map_pushSubstitution]
  · simp only [if_neg hdollar, pure_bind]
    by_cases hescape : c = '\\'
    · subst hescape
      exact unquotedEscape_alike ⟨u.text, _⟩ p
    · simp only [if_neg hescape]
      exact .done rfl

theorem groupEnd_alike (u : Unquoted Nat) (p : List Char) :
    Alike K (Twin K p [')']) (groupEnd u ')') (groupEnd (u.map K.place) ')') Never
      (Meets K (Next.map (Unquoted.map K.place))) := by
  refine .known (l := []) fun hc => .peekOnLine (.done rfl) fun b x _ => .retreat ?_
  refine .ite Iff.rfl (fun _ => .done rfl) fun _ => ?_
  exact .peekKnown hc (.accept (.here (.done rfl)))

theorem unquotedConnector_alike (hrole : Role.Twins K role₁ role₂) (hkey : role₁.isKey = true)
    (u : Unquoted Nat) {c : Char} (hc : c = '-' ∨ c = '*') (p : List Char) :
    Alike K (Twin K p [c]) (unquotedConnector role₁ u c)
      (unquotedConnector role₂ (u.map K.place) c) (Stops fun _ => role₁.Strands K)
      (Meets K (Next.map (Unquoted.map K.place))) := by
  refine .known (l := []) fun hknown => ?_
  refine .peek (fun _ => .done rfl) (fun htail hrest s hs => ?_) fun x => .retreat ?_
  · exact .inr ⟨htail, u, rfl, hkey, p, c, hs, hrest, hc⟩
  · refine .ite Iff.rfl (fun _ => .done rfl) fun _ => ?_
    exact .peekKnown hknown (.accept (unquotedBehind_alike hrole u c p).tail)

theorem unquotedCharacter_alike (hrole : Role.Twins K role₁ role₂) (u : Unquoted Nat)
    (p : List Char) :
    Alike K (Twin K p []) (unquotedCharacter role₁ u) (unquotedCharacter role₂ (u.map K.place))
      (Stops fun _ => role₁.Strands K) (Meets K (Next.map (Unquoted.map K.place))) := by
  refine .peekLine ?_ (.done rfl) fun c => .inGroup ?_
  · -- a new line is no closing parenthesis, and it ends every unquoted text
    refine Grammar.ext fun s => ?_
    simp [bind_apply, Grammar.inGroup, Grammar.endsUnquoted]
  · simp only [hrole.endsUnquoted, hrole.isKey]
    refine .ite Iff.rfl (fun hclose => ?_) fun _ => .ite Iff.rfl (fun _ => ?_) fun _ =>
      .ite Iff.rfl (fun hconnector => ?_) fun _ => ?_
    · obtain rfl : c = ')' := by simp at hclose; exact hclose.2
      exact (groupEnd_alike u p).tail
    · exact .retreat (.done rfl)
    · obtain ⟨hkey, hc⟩ : role₁.isKey = true ∧ (c = '-' ∨ c = '*') := by simpa using hconnector
      exact unquotedConnector_alike hrole hkey u hc p
    · exact .accept (unquotedBehind_alike hrole u c p).tail

theorem unquotedText_alike (hrole : Role.Twins K role₁ role₂) (p : List Char) :
    Alike K (Twin K p []) (unquotedText role₁) (unquotedText role₂) (fun _ => role₁.Strands K)
      (Meets K (Option.map (Text.mapMarks (Span.map K.place)))) := by
  refine .here (.bounded fun hle => ?_)
  have hempty : Unquoted.Within K.first p.length ⟨.empty, p.length⟩ p.length :=
    ⟨p.length, Nat.le_refl _, Nat.le_refl _, (K.first_mark (by omega)).symm, Nat.le_refl _⟩
  refine .callStray (repeating_alike_stops (f := Unquoted.map K.place) hempty
    (fun _ _ hu => unquotedCharacter_reads hrole.reads hu)
    fun u q _ => unquotedCharacter_alike hrole u q) (fun htail u => ?_) fun u q => ?_
  · exact .ite (fun _ => .astray_pure htail fun _ hs => hs) fun _ =>
      .astray_pure htail fun _ hs => hs
  · have hpieces : ((u.map K.place).text.trimEnd).finish =
        Piece.mapMarksAll (Span.map K.place) u.text.trimEnd.finish :=
      Gathered.map_finish K.place u.text.trimEnd
    have hisEmpty : (Piece.mapMarksAll (Span.map K.place) u.text.trimEnd.finish).isEmpty =
        u.text.trimEnd.finish.isEmpty := by
      rw [Piece.mapMarksAll_eq, List.isEmpty_map]
    simp only [hpieces, hisEmpty]
    exact .ite Iff.rfl (fun _ => .done rfl) fun _ => .done rfl

/-! ## Quoted text -/

theorem doubleQuotedEscape_alike (start : Nat) (g : Gathered Nat) (p : List Char) :
    Alike K (Twin K ('\\' :: p) []) (doubleQuotedEscape start g)
      (doubleQuotedEscape (K.place start) (g.map K.place)) Never
      (Meets K (Next.map (Gathered.map K.place))) := by
  refine .read (fun _ => ?_) (fun htail => ?_) fun c => ?_
  · exact .placeOf (by decide) (.reportToReach fun _ => .reportToReach fun _ => .done rfl)
  · exact .placeOf (by decide) (.astray_reportToReach htail)
  · by_cases hc : c = '\n'
    · subst hc
      exact .done rfl
    · simp only [if_neg hc]
      exact .done rfl

theorem doubleQuotedBehind_alike (hrole : Role.Twins K role₁ role₂) (start : Nat)
    (g : Gathered Nat) (c : Char) (p : List Char) :
    Alike K (Twin K (c :: p) []) (doubleQuotedBehind role₁ start g c)
      (doubleQuotedBehind role₂ (K.place start) (g.map K.place) c) Never
      (Meets K (Next.map (Gathered.map K.place))) := by
  by_cases hdollar : c = '$'
  · subst hdollar
    refine .call (hrole.substitution p) fun r q => ?_
    cases r with
    | none => exact .done rfl
    | some s =>
      refine .done ?_
      simp only [Next.map, ← Gathered.map_pushSubstitution]
  · simp only [doubleQuotedBehind, if_neg hdollar, pure_bind]
    refine .ite Iff.rfl (fun _ => .done rfl) fun _ => ?_
    by_cases hescape : c = '\\'
    · subst hescape
      exact doubleQuotedEscape_alike start g p
    · simp only [if_neg hescape]
      exact .done rfl

theorem doubleQuotedCharacter_alike (hrole : Role.Twins K role₁ role₂) (start : Nat)
    (g : Gathered Nat) (p : List Char) :
    Alike K (Twin K p []) (doubleQuotedCharacter role₁ start g)
      (doubleQuotedCharacter role₂ (K.place start) (g.map K.place)) Never
      (Meets K (Next.map (Gathered.map K.place))) := by
  refine .peek (fun _ => .reportToReach fun _ => .done rfl) (fun htail _ => ?_) fun c =>
    .ite Iff.rfl (fun _ => ?_) fun _ => ?_
  · exact .astray_reportToReach htail
  · exact .retreat (.reportToHere fun _ => .done rfl)
  · exact .accept (doubleQuotedBehind_alike hrole start g c p)

theorem doubleQuotedText_alike (hrole : Role.Twins K role₁ role₂) (p : List Char) :
    Alike K (Twin K ('"' :: p) []) (doubleQuotedText role₁) (doubleQuotedText role₂) Never
      (Meets K (Text.mapMarks (Span.map K.place))) := by
  have hempty : Gathered.empty.Within K.first.cover p.length ('"' :: p).length :=
    Nat.le_succ p.length
  refine .placeOf (by decide) (.call (repeating_alike_never (f := Gathered.map K.place) hempty
    (fun _ _ hg => doubleQuotedCharacter_reads hrole.reads hg)
    fun g q _ => doubleQuotedCharacter_alike hrole p.length g q) fun g q => .here (.done ?_))
  simp only [Text.mapMarks, Gathered.map_finish]
  rfl

/-- The first run has come to the end of its text. -/
def Ended (K : Pairing π) (s : State Nat) : Prop :=
  ∃ q, s.At K.first q [] ∧ K.first.text.length ≤ q.length

theorem singleQuote_alike (text p : List Char) :
    Alike K (Twin K p []) (singleQuote text) (singleQuote text) Never (Meets K (Next.map id)) := by
  refine .peekLine (if_neg (by decide)) (.done rfl) fun c => .ite Iff.rfl (fun _ => ?_) fun _ => ?_
  · exact .accept (.done rfl)
  · exact .retreat (.done rfl)

/-- Behind a backslash at the end of its text, the first run wants to read on. -/
theorem singleQuotedBackslash_alike (text p : List Char) :
    Alike K (Twin K p []) (singleQuotedBackslash text) (singleQuotedBackslash text)
      (fun next s => (∃ text, next = .again text) ∧ Ended K s) (Meets K (Next.map id)) := by
  refine .peek (fun _ => .done rfl) (fun htail hend s hs => ?_) fun c =>
    .ite Iff.rfl (fun _ => .accept (.done rfl)) fun _ => .retreat (.done rfl)
  exact .inr ⟨htail, ⟨text, rfl⟩, p, hs, List.drop_eq_nil_iff.mp hend⟩

theorem singleQuotedCharacter_alike (start : Nat) (text p : List Char) :
    Alike K (Twin K p []) (singleQuotedCharacter start text)
      (singleQuotedCharacter (K.place start) text)
      (fun next s => (∃ text, next = .again text) ∧ Ended K s) (Meets K (Next.map id)) := by
  refine .peek (fun _ => .reportToReach fun _ => .done rfl) (fun htail _ => ?_) fun c =>
    .ite Iff.rfl (fun _ => ?_) fun _ => .accept ?_
  · exact .astray_reportToReach htail
  · exact .retreat (.reportToHere fun _ => .done rfl)
  · refine .ite Iff.rfl (fun _ => (singleQuote_alike text _).tail) fun _ =>
      .ite Iff.rfl (fun _ => singleQuotedBackslash_alike text _) fun _ => .done rfl

theorem singleQuotedText_alike (p : List Char) :
    Alike K (Twin K ('\'' :: p) []) singleQuotedText singleQuotedText Never
      (Meets K (Text.mapMarks (Span.map K.place))) := by
  refine .placeOf (by decide) (.call (repeating_alike (f := id) trivial
    (fun text p _ => singleQuotedCharacter_reads _ text p)
    (fun text q _ => singleQuotedCharacter_alike p.length text q) ?_ ?_) fun text q =>
      .here (.done rfl))
  · rintro text s ⟨⟨_, h⟩, -⟩
    cases h
  · -- the quote that is missing at the end is reported by the next step
    rintro htail text s ⟨-, q, hs, hend⟩
    exact Ensures.peekEnd hend (.astray_reportToReach htail) s hs

/-! ## Texts, paths and substitutions -/

theorem textFrom_alike (hrole : Role.Twins K role₁ role₂) {c : Char} (hc : isBlank c = false)
    (p : List Char) :
    Alike K (Twin K (c :: p) []) (textFrom role₁ c) (textFrom role₂ c) (fun _ => role₁.Strands K)
      (Meets K (Option.map (Text.mapMarks (Span.map K.place)))) := by
  refine .ite Iff.rfl ?_ fun _ => .ite Iff.rfl ?_ fun _ => .ite Iff.rfl ?_ fun _ => ?_
  · rintro rfl
    exact .call (doubleQuotedText_alike hrole p) fun _ _ => .done rfl
  · rintro rfl
    exact .call (singleQuotedText_alike p) fun _ _ => .done rfl
  · rintro rfl
    refine .known_of_consumed fun hknown => ?_
    have hshift : K.shift = 0 := K.blocks.resolve_right fun h => h (List.mem_of_getElem? hknown)
    exact .call (blockText_alike hshift p) fun _ _ => .done rfl
  · exact .putBack (ne_newline_of_visible hc) (unquotedText_alike hrole p)

theorem text_alike (hrole : Role.Twins K role₁ role₂) (p : List Char) :
    Alike K (Twin K p []) (text role₁) (text role₂) (fun _ => role₁.Strands K)
      (Meets K (Option.map (Text.mapMarks (Span.map K.place)))) := by
  refine .peekOnLine (.done rfl) fun b c hc => .accept ?_
  rw [List.append_nil]
  exact textFrom_alike hrole hc (b ++ p)

/-- What the first run does in front of a dash or a star that is left of its text. -/
theorem Ensures.stranded {β : Type} {g : Grammar Nat β} {Q : β → State Nat → Prop}
    (h : ∀ q c, (c = '-' ∨ c = '*') → isBlank c = false → K.first.text.drop q.length = [c] →
      K.first.text[q.length]? = some c → Ensures (State.At K.first q []) g Q) :
    Ensures (Stranded K) g Q := by
  rintro s ⟨q, c, hs, hrest, hc⟩
  have hknown : K.first.text[q.length]? = some c := by
    rw [← List.head?_drop, hrest]
    rfl
  refine h q c hc ?_ hrest hknown s hs
  rcases hc with rfl | rfl <;> decide

theorem pathPoint_alike (segments : List (Text (Span Nat))) (p : List Char) :
    Alike K (Twin K p []) (pathPoint segments)
      (pathPoint (segments.map (Text.mapMarks (Span.map K.place)))) Never
      (Meets K (Next.map (List.map (Text.mapMarks (Span.map K.place))))) := by
  refine .peekOnLine (.done rfl) fun b c _ => .ite Iff.rfl (fun _ => ?_) fun _ => ?_
  · exact .accept (.done rfl)
  · exact .retreat (.done rfl)

theorem pathPoint_astray (htail : K.tail ≠ []) (segments : List (Text (Span Nat))) :
    Ensures (Stranded K) (pathPoint segments) (K.Astray (Stops fun _ => Stranded K)) := by
  refine .stranded fun q c hc hvisible hrest hknown => .peekOnLineKnown hknown hvisible ?_
  refine .ite (fun hpoint => ?_) fun _ => .retreat (.astray_pure htail fun s hs => ?_)
  · rcases hc with rfl | rfl <;> cases hpoint
  · exact ⟨segments, rfl, q, c, hs, hrest, hc⟩

theorem pathSegment_alike (segments : List (Text (Span Nat))) (p : List Char) :
    Alike K (Twin K p []) (pathSegment segments)
      (pathSegment (segments.map (Text.mapMarks (Span.map K.place)))) (Stops fun _ => Stranded K)
      (Meets K (Next.map (List.map (Text.mapMarks (Span.map K.place))))) := by
  refine .peekOnLine (.done rfl) fun b c _ =>
    .retreat (.ite Iff.rfl (fun _ => .done rfl) fun _ => ?_)
  have htext : Alike K (Twin K p []) (text .key) (text .key) (fun _ => Stranded K)
      (Meets K (Option.map (Text.mapMarks (Span.map K.place)))) :=
    (text_alike Role.key_twins p).weaken (fun _ _ h => h.2) fun _ _ _ _ h => h
  refine .callStray htext (fun htail r => ?_) fun r q => ?_
  · cases r with
    | none => exact .astray_pure htail fun s hs => ⟨segments, rfl, hs⟩
    | some segment => exact pathPoint_astray htail _
  · cases r with
    | none => exact .done rfl
    | some segment => exact (pathPoint_alike (segment :: segments) q).tail

theorem path_alike (p : List Char) :
    Alike K (Twin K p []) path path (fun _ => Stranded K)
      (Meets K (Option.map (KeyPath.mapMarks (Span.map K.place)))) := by
  refine .here (.callStray (repeating_alike_stops (I := PathWithin K.first p.length)
    (f := List.map (Text.mapMarks (Span.map K.place))) (Nat.le_refl _)
    (fun _ _ h => pathSegment_reads h) fun segments q _ => pathSegment_alike segments q)
    (fun htail segments => ?_) fun segments q => ?_)
  · exact .ite (fun _ => .astray_pure htail fun _ hs => hs) fun _ _ hs => .inr ⟨htail, hs⟩
  · rw [List.isEmpty_map]
    refine .ite Iff.rfl (fun _ => .done rfl) fun _ => .here (.done ?_)
    simp only [Option.map, KeyPath.mapMarks, Text.mapMarksAll_eq, List.map_reverse]
    rfl

theorem substitutionEnd_alike (start : Nat) (p : List Char) :
    Alike K (Twin K p []) (substitutionEnd start) (substitutionEnd (K.place start)) Never
      (Meets K id) := by
  refine .peekVisible ?_ (fun htail c n _ _ => ?_) fun b c _ => ?_
  · exact .last (.reportToReach fun _ => .done rfl)
  · exact .crossedStray fun _ => Ensures.astray_reportToReach (f := pure) htail
  · refine .ite Iff.rfl (fun _ => ?_) fun _ => .retreat ?_
    · exact .last (.accept (.done rfl))
    · exact .last (.reportToHere fun _ => .done rfl)

/-- A dash or a star is left where a substitution should be closed. -/
theorem substitutionEnd_astray (htail : K.tail ≠ []) (start : Nat) :
    Ensures (Stranded K) (substitutionEnd start) (K.Astray Never) := by
  refine .stranded fun q c hc hvisible _ hknown => .peekVisibleKnown hknown hvisible ?_
  refine .ite (fun hbrace => ?_) fun _ => .retreat ?_
  · rcases hc with rfl | rfl <;> cases hbrace
  · exact Ensures.astray_reportToHere (f := pure) htail

theorem substitutionFrom_alike (start : Nat) (spread : Bool) (p : List Char) :
    Alike K (Twin K p []) (substitutionFrom start spread)
      (substitutionFrom (K.place start) spread) Never
      (Meets K (Option.map (Substitution.mapMarks (Span.map K.place)))) := by
  refine .peekOnLine (.done rfl) fun b c _ => .ite Iff.rfl (fun _ => ?_) fun _ => .accept ?_
  · exact .retreat (.reportToReach fun _ => .done rfl)
  · refine .callStray (path_alike _) (fun htail path => ?_) fun path q => ?_
    · exact .astray (substitutionEnd_astray htail start) fun _ _ _ h => h.elim
    · refine .call (substitutionEnd_alike start q) fun _ q => .here (.done ?_)
      cases path with
      | none => rfl
      | some path => rfl

theorem substitution_alike (p : List Char) :
    Alike K (Twin K ('$' :: p) []) (substitution false) (substitution false) Never
      (Meets K (Option.map (Substitution.mapMarks (Span.map K.place)))) :=
  .placeOf (by decide) (substitutionFrom_alike p.length false _)

theorem spreadSubstitution_alike (p : List Char) :
    Alike K (Twin K ('$' :: '.' :: '.' :: '.' :: p) []) (substitution true) (substitution true)
      Never (Meets K (Option.map (Substitution.mapMarks (Span.map K.place)))) :=
  .placeOf (by decide) (.beforeAll (b := ['$']) (p := p) rfl rfl (by simp)
    (substitutionFrom_alike p.length true _))

theorem Role.value_twins : Role.Twins K (.value (substitution false))
    (.value (substitution false)) where
  isKey := rfl
  substitution := substitution_alike
  reads := Role.value_reads

/-- Nothing is left behind a text in a value. -/
theorem valueText_alike (p : List Char) :
    Alike K (Twin K p []) valueText valueText Never
      (Meets K (Option.map (Text.mapMarks (Span.map K.place)))) :=
  (text_alike Role.value_twins p).weaken (fun _ _ h => Bool.noConfusion h.1) fun _ _ _ _ h => h

end Grammar

/-! ## Where nothing is left -/

namespace State.Exhausted

variable {s : State Nat}

theorem peek (h : s.Exhausted) : Grammar.peek s = (none, s) := by
  rw [Grammar.peek, Grammar.reading_apply, h]

theorem peekOnLine (h : s.Exhausted) : Grammar.peekOnLine s = (none, s) := by
  have hvisible : s.reader.peekVisible = (none, s.reader) := by
    rw [Reader.peekVisible, Reader.peekVisibleWithin, h]
  rw [Grammar.peekOnLine, Grammar.peekVisible, Grammar.reading_bind, hvisible]
  rfl

theorem path (h : s.Exhausted) : Grammar.path s = (none, s) := by
  have hsegment : Grammar.pathSegment [] s = (.stop [], s) := by
    rw [Grammar.pathSegment, Grammar.bind_apply, h.peekOnLine]
    rfl
  have hsegments : Grammar.repeating Grammar.pathSegment [] s = ([], s) := by
    have honce : Grammar.Ensures (· = s) (Grammar.repeating Grammar.pathSegment [])
        fun segments s' => segments = [] ∧ s' = s := by
      refine .repeating_once ?_
      rintro _ rfl
      rw [hsegment]
      exact ⟨[], rfl, rfl, rfl⟩
    obtain ⟨hnil, hsame⟩ := honce s rfl
    exact Prod.ext hnil hsame
  rw [Grammar.path, Grammar.bind_apply, Grammar.bind_apply]
  simp only [Grammar.here, Grammar.asking_apply, hsegments]
  rfl

end State.Exhausted

end Diagram
