import Diagram.Proofs.Diagnostics.Basic
import Diagram.Proofs.Sound.Edge

/-!
The problems of comments, texts, paths and edges lie in the text: each is noticed where its
construct has been entered, from the place where that starts.
-/
namespace Diagram.Grammar

variable {π : Type} {F : Frame π}

/-! ## Comments and blocks -/

theorem quiet_commentLine (text : List Char) : Quiet (commentLine text : Grammar π (List Char)) :=
  .bind (.repeating (fun _ => .looking (.reading _) .pure fun _ => .ite .moved .moved) _)
    fun _ => .pure

theorem quiet_comment : Quiet (comment : Grammar π (Comment (Span π))) := by
  refine .bind .placeOf fun _ => .bind (quiet_commentLine _) fun _ =>
    .bind (.repeating (fun g => ?_) _) fun _ => .bind (fun _ => rfl) fun _ => .pure
  refine .looking (.reading _) .pure fun _ => .ite .moved ?_
  exact .bind (.adjusting _) fun _ => .bind (quiet_commentLine _) fun _ => .pure

theorem quiet_opening : Quiet (opening : Grammar π Opening) :=
  .repeating (fun _ => .looking (.reading _) .pure fun _ => .ite .moved .moved) _

theorem quiet_blockContent (first : Char) (rest text : List Char) :
    Quiet (blockContent first rest text : Grammar π Content) := by
  refine .repeating (fun _ => .looking (.reading _) .pure fun _ => .ite .pure ?_) _
  refine .bind (.reading _) fun seen => ?_
  cases seen with
  | none => exact .pure
  | some seen => exact .ite .moved .moved

theorem quiet_commentContent : Quiet (commentContent : Grammar π Content) := by
  refine .bind quiet_opening fun o => ?_
  cases o with
  | ended => exact .pure
  | newLine | sameLine => exact quiet_blockContent _ _ _

theorem quiet_runUntil (stops : Char → Bool) :
    Quiet (runUntil stops : Grammar π (List Char × Bool)) :=
  .bind (.repeating (fun _ => .looking (.reading _) .pure fun _ => .ite .moved .moved) _)
    fun _ => .pure

theorem quiet_textContent (quote : List Char) : Quiet (textContent quote : Grammar π Content) := by
  have hfrom : ∀ text, Quiet (textContentFrom quote text : Grammar π Content) := by
    intro text
    cases quote <;> exact quiet_blockContent _ _ _
  refine .bind quiet_opening fun o => ?_
  cases o with
  | ended => exact .pure
  | newLine => exact hfrom _
  | sameLine => exact .bind (fun _ => rfl) fun _ => hfrom _

theorem quiet_block : Quiet (block : Grammar π Block) :=
  .bind (quiet_runUntil _) fun _ => .ite .pure (.bind (quiet_runUntil _) fun _ =>
    .ite .pure (.bind (quiet_textContent _) fun _ => .pure))

/-- A block that is not closed is a problem from its start on. -/
theorem blockComment_notices (p : List Char) :
    Notices F.toTape (State.At F ('"' :: '"' :: '"' :: p) []) blockComment := by
  refine .here (.beforeAll (b := []) (p := p) rfl rfl (by simp) ?_)
  refine .nested (.quiet quiet_commentContent) (commentContent_reads _) fun content q hq _ => ?_
  simp at hq
  exact .next (.whenever fun _ => .reportToReach (by omega) nofun)
    (.whenever_stays .reportToReach_stays) (.here .pure)

theorem blockText_notices (p : List Char) :
    Notices F.toTape (State.At F ('|' :: p) []) blockText := by
  refine .placeOf (by decide) (.nested (.quiet quiet_block) (block_reads _) fun b q hq _ => ?_)
  simp at hq
  exact .next (.whenever fun _ => .reportToReach (by omega) nofun)
    (.whenever_stays .reportToReach_stays) (.here .pure)

/-! ## Unquoted text -/

/-- What a text in the given role may hold is read as it should be, and its problems lie in the
text. -/
structure Role.Notices (F : Frame π) (role : Role π) : Prop where
  reads : role.Reads F
  notices : ∀ p, Grammar.Notices F.toTape (State.At F ('$' :: p) []) role.substitution?

theorem Role.key_notices : Role.Notices F .key :=
  ⟨Role.key_reads, fun _ => .pure⟩

theorem unquotedEscape_notices (u : Unquoted π) (p : List Char) :
    Notices F.toTape (State.At F ('\\' :: p) []) (unquotedEscape u) := by
  refine .read ?_ fun c => .ite (fun _ => ?_) fun _ => .here .pure
  · exact .placeOf (by decide) (.next (.reportToReach (by simp) nofun) .reportToReach_stays .pure)
  · exact .peekOnLine .pure fun b x hx => .accept (.putBack (ne_newline_of_visible hx) .pure)

variable {role : Role π}

theorem unquotedBehind_notices (hrole : role.Notices F) (u : Unquoted π) (c : Char)
    (p : List Char) :
    Notices F.toTape (State.At F (c :: p) []) (unquotedBehind role u c) := by
  refine .here ?_
  by_cases hdollar : c = '$'
  · subst hdollar
    refine .call (hrole.notices p) (hrole.reads p) fun r q _ _ => ?_
    cases r with
    | none => exact .pure
    | some s => exact .here .pure
  · rw [if_neg hdollar]
    by_cases hescape : c = '\\'
    · subst hescape
      exact unquotedEscape_notices _ p
    · exact .ite (fun h => absurd h hescape) fun _ => .pure

theorem quiet_groupEnd (u : Unquoted π) (c : Char) : Quiet (groupEnd u c) :=
  .looking .peekOnLine .pure fun _ => .bind (.adjusting _) fun _ => .ite .pure
    (.bind (.reading _) fun _ => .bind (.adjusting _) fun _ => .bind (fun _ => rfl) fun _ => .pure)

theorem unquotedCharacter_notices (hrole : role.Notices F) (u : Unquoted π) (p : List Char) :
    Notices F.toTape (State.At F p []) (unquotedCharacter role u) := by
  refine .peek .pure fun c => .inGroup ?_
  refine .ite (fun _ => .quiet (quiet_groupEnd u c)) fun _ => .ite (fun _ => .retreat .pure)
    fun _ => .ite (fun _ => ?_) fun _ => .accept (unquotedBehind_notices hrole u c p)
  refine .known (l := []) fun hc => .peek .pure fun x =>
    .retreat (.ite (fun _ => .pure) fun _ => ?_)
  exact .peekKnown hc (.accept (unquotedBehind_notices hrole u c p))

theorem unquotedText_notices (hrole : role.Notices F) (p : List Char) :
    Notices F.toTape (State.At F p []) (unquotedText role) := by
  have hempty : Unquoted.Within F p.length ⟨.empty, F.mark p.length⟩ p.length :=
    ⟨p.length, Nat.le_refl _, Nat.le_refl _, rfl, Nat.le_refl _⟩
  have hreads := fun u (q : List Char) (hu : Unquoted.Within F p.length u q.length) =>
    unquotedCharacter_reads hrole.reads hu
  exact .here (.call (.repeating hreads (fun u q _ _ => unquotedCharacter_notices hrole u q) hempty)
    (repeating_ensures hreads hempty) fun u q _ _ => .ite (fun _ => .pure) fun _ => .pure)

/-! ## Quoted text -/

theorem doubleQuotedEscape_notices (g : Gathered π) {n : Nat} {p : List Char} (hn : n ≤ p.length) :
    Notices F.toTape (State.At F ('\\' :: p) []) (doubleQuotedEscape (F.mark n) g) := by
  refine .read ?_ fun c => .pure
  refine .placeOf (by decide) (.next (.reportToReach (by simp) nofun) .reportToReach_stays ?_)
  exact .next (.reportToReach (by simp; omega) nofun) .reportToReach_stays .pure

theorem doubleQuotedBehind_notices (hrole : role.Notices F) (g : Gathered π) (c : Char) {n : Nat}
    {p : List Char} (hn : n ≤ p.length) :
    Notices F.toTape (State.At F (c :: p) []) (doubleQuotedBehind role (F.mark n) g c) := by
  by_cases hdollar : c = '$'
  · subst hdollar
    refine .call (hrole.notices p) (hrole.reads p) fun r q _ _ => ?_
    cases r <;> exact .pure
  · rw [doubleQuotedBehind, if_neg hdollar]
    refine .ite (fun _ => .pure) fun _ => ?_
    by_cases hescape : c = '\\'
    · subst hescape
      exact doubleQuotedEscape_notices g hn
    · exact .ite (fun h => absurd h hescape) fun _ => .pure

theorem doubleQuotedCharacter_notices (hrole : role.Notices F) (g : Gathered π) {n : Nat}
    {p : List Char} (hn : n ≤ p.length) :
    Notices F.toTape (State.At F p []) (doubleQuotedCharacter role (F.mark n) g) := by
  refine .peek (.next (.reportToReach hn nofun) .reportToReach_stays .pure) fun c =>
    .ite (fun _ => .retreat (.next (.reportToHere hn nofun) .reportToHere_stays .pure)) fun _ => ?_
  exact .accept (doubleQuotedBehind_notices hrole g c hn)

theorem doubleQuotedText_notices (hrole : role.Notices F) (p : List Char) :
    Notices F.toTape (State.At F ('"' :: p) []) (doubleQuotedText role) := by
  have hempty : Gathered.empty.Within F.cover p.length (p.length + 1) := Nat.le_succ p.length
  have hreads start g (q : List Char) (hg : Gathered.Within F.cover p.length g q.length) :
      Ensures (State.At F q []) (doubleQuotedCharacter role start g)
        (Steps F q.length (Gathered.Within F.cover p.length) (Gathered.Within F.cover p.length)) :=
    doubleQuotedCharacter_reads hrole.reads hg
  refine .placeOf (by decide) (.call (.repeating (hreads _) (fun g q hq _ => ?_) hempty)
    (repeating_ensures (hreads _) hempty) fun g q _ _ => .here .pure)
  exact doubleQuotedCharacter_notices hrole g (Nat.le_of_succ_le hq)

theorem quiet_singleQuote (text : List Char) :
    Quiet (singleQuote text : Grammar π (Next (List Char))) :=
  .looking (.reading _) .pure fun _ => .ite .moved .moved

theorem quiet_singleQuotedBackslash (text : List Char) :
    Quiet (singleQuotedBackslash text : Grammar π (Next (List Char))) :=
  .looking (.reading _) .pure fun _ => .ite .moved .moved

theorem singleQuotedCharacter_notices (text : List Char) {n : Nat} {p : List Char}
    (hn : n ≤ p.length) :
    Notices F.toTape (State.At F p []) (singleQuotedCharacter (F.mark n) text) := by
  refine .peek (.next (.reportToReach hn nofun) .reportToReach_stays .pure) fun c =>
    .ite (fun _ => .retreat (.next (.reportToHere hn nofun) .reportToHere_stays .pure)) fun _ =>
    .accept ?_
  exact .ite (fun _ => .quiet (quiet_singleQuote text)) fun _ =>
    .ite (fun _ => .quiet (quiet_singleQuotedBackslash text)) fun _ => .pure

theorem singleQuotedText_notices (p : List Char) :
    Notices F.toTape (State.At F ('\'' :: p) []) singleQuotedText := by
  have hreads := fun text (q : List Char) (_ : True) =>
    singleQuotedCharacter_reads (F := F) (F.mark p.length) text q
  refine .placeOf (by decide) (.call (R := fun _ _ => True)
    (.repeating (I := fun _ _ => True) hreads (fun text q hq _ => ?_) trivial)
    (repeating_ensures (I := fun _ _ => True) hreads trivial) fun text q _ _ => .here .pure)
  exact singleQuotedCharacter_notices text (Nat.le_of_succ_le hq)

/-! ## Texts, paths and substitutions -/

theorem textFrom_notices (hrole : role.Notices F) {c : Char} (hc : isBlank c = false)
    (p : List Char) : Notices F.toTape (State.At F (c :: p) []) (textFrom role c) := by
  refine .ite ?_ fun _ => .ite ?_ fun _ => .ite ?_ fun _ => ?_
  · rintro rfl
    exact .mapped (doubleQuotedText_notices hrole p)
  · rintro rfl
    exact .mapped (singleQuotedText_notices p)
  · rintro rfl
    exact .mapped (blockText_notices p)
  · exact .putBack (ne_newline_of_visible hc) (unquotedText_notices hrole p)

theorem text_notices (hrole : role.Notices F) (p : List Char) :
    Notices F.toTape (State.At F p []) (text role) :=
  .peekOnLine .pure fun _ _ hc => .accept (textFrom_notices hrole hc _)

theorem quiet_pathPoint (segments : List (Text (Span π))) : Quiet (pathPoint segments) :=
  .looking .peekOnLine .pure fun _ => .ite .moved .moved

theorem pathSegment_notices (segments : List (Text (Span π))) (p : List Char) :
    Notices F.toTape (State.At F p []) (pathSegment segments) := by
  refine .peekOnLine .pure fun b c _ => .retreat (.ite (fun _ => .pure) fun _ => ?_)
  refine .call (text_notices Role.key_notices p) (text_reads Role.key_reads p) fun r q _ _ => ?_
  cases r with
  | none => exact .pure
  | some segment => exact .quiet (quiet_pathPoint _)

theorem path_notices (p : List Char) : Notices F.toTape (State.At F p []) path := by
  have hreads := fun segments (q : List Char) (h : PathWithin F p.length segments q.length) =>
    pathSegment_reads h
  exact .here (.call (.repeating hreads (fun segments q _ _ => pathSegment_notices segments q)
    (Nat.le_refl _)) (repeating_ensures hreads (Nat.le_refl _)) fun segments q _ _ =>
      .ite (fun _ => .pure) fun _ => .here .pure)

variable {n : Nat}

theorem substitutionEnd_notices {p : List Char} (hn : n ≤ p.length) :
    Notices F.toTape (State.At F p []) (substitutionEnd (F.mark n)) := by
  refine .peekVisible (.reportToReach hn nofun) fun b c _ => .ite (fun _ => ?_) fun _ => ?_
  · exact .quiet (.adjusting _)
  · exact .retreat (.reportToHere hn nofun)

theorem substitutionFrom_notices (spread : Bool) {p : List Char} (hn : n ≤ p.length) :
    Notices F.toTape (State.At F p []) (substitutionFrom (F.mark n) spread) := by
  refine .peekOnLine .pure fun b c _ => .ite (fun _ => ?_) fun _ => ?_
  · exact .retreat (.next (.reportToReach hn nofun) .reportToReach_stays .pure)
  refine .accept (.call (path_notices _) (path_reads _) fun path q hq _ => ?_)
  simp at hq
  exact .call (substitutionEnd_notices (by omega)) (substitutionEnd_reads _ q) fun _ _ _ _ =>
    .here .pure

theorem substitution_notices (p : List Char) :
    Notices F.toTape (State.At F ('$' :: p) []) (substitution false) :=
  .placeOf (by decide) (substitutionFrom_notices false (by simp))

theorem spreadSubstitution_notices (p : List Char) :
    Notices F.toTape (State.At F ('$' :: '.' :: '.' :: '.' :: p) []) (substitution true) := by
  refine .placeOf (by decide) (.beforeAll (b := ['$']) (p := p) rfl rfl (by simp) ?_)
  refine substitutionFrom_notices true ?_
  simp
  omega

theorem Role.value_notices : Role.Notices F (.value (substitution false)) :=
  ⟨Role.value_reads, substitution_notices⟩

theorem valueText_notices (p : List Char) : Notices F.toTape (State.At F p []) valueText :=
  text_notices Role.value_notices p

/-! ## Edges -/

theorem edgeEscape_notices {p : List Char} (hn : n ≤ p.length) :
    Notices F.toTape (State.At F p []) (edgeEscape (F.mark n)) := by
  refine .peekVisible .pure fun b c hc => .ite (fun _ => ?_) fun _ => .ite (fun _ => ?_) fun _ => ?_
  · exact .retreat (.next (.reportToReach hn nofun) .reportToReach_stays .pure)
  · exact .accept (.putBack (ne_newline_of_visible hc) .pure)
  · exact .retreat .pure

theorem edgeCharacter_notices (head : Option Arrowhead) {p : List Char} (hn : n ≤ p.length) :
    Notices F.toTape (State.At F p []) (edgeCharacter (F.mark n) head) := by
  refine .peek (.next (.reportToReach hn nofun) .reportToReach_stays .pure) fun c =>
    .ite (fun _ => .accept .pure) fun _ => .ite (fun _ => .accept .pure) fun _ =>
    .ite (fun _ => .accept ?_) fun _ => .ite (fun _ => .accept .pure) fun _ => .retreat .pure
  exact .mapped (edgeEscape_notices (by simp; omega))

theorem edgeLine_notices {p : List Char} (hn : n ≤ p.length) :
    Notices F.toTape (State.At F p []) (edgeLine (F.mark n)) :=
  .repeating (fun head q _ => edgeCharacter_reads _ head q)
    (fun head _ hq _ => edgeCharacter_notices head (Nat.le_trans hn hq)) trivial

theorem edgeStart_notices (source : Option (KeyPath (Span π))) {p b : List Char} {c : Char}
    (hc : c ≠ '\n') : Notices F.toTape (State.At F p (c :: b)) (edgeStart source c) := by
  cases source with
  | some path => exact .pure
  | none =>
    refine .lookedBehind fun i hi => .before hi hc (.next ?_ .report_stays .pure)
    exact .report (Nat.le_succ i) (List.getElem?_eq_some_iff.mp hi).1 nofun

theorem edgeTarget_notices (chain : Chain π) (head targetHead : Arrowhead) {p : List Char}
    (hn : n ≤ p.length) :
    Notices F.toTape (State.At F p []) (edgeTarget chain head (F.mark n) targetHead) := by
  refine .here (.call (path_notices p) (path_reads p) fun target q hq _ => ?_)
  cases target with
  | some target => exact .pure
  | none => exact .next (.reportToHere (by omega) nofun) .reportToHere_stays .pure

theorem nextEdge_notices {chain : Chain π} {p : List Char} (hchain : chain.Within F n p.length) :
    Notices F.toTape (State.At F p []) (nextEdge chain) := by
  refine .peekOnLine .pure fun b c hc => ?_
  dsimp only
  rw [List.append_nil]
  have hc := ne_newline_of_visible hc
  cases sourceHead? c with
  | none => exact .retreat .pure
  | some head =>
    obtain ⟨hn, -, hsource⟩ := hchain
    refine .after (edgeStart_notices chain.source hc)
      (.bind (edgeStart_reads hc hn hsource) fun start => ?_)
    refine .of_exists fun i => .of_and fun ⟨hstart, _, hi, _⟩ => .pure ?_
    rw [hstart]
    simp at hi
    refine Notices.accept (.call (edgeLine_notices ?_) (edgeLine_reads _ _)
      fun targetHead q hq _ => ?_)
    · simp
      omega
    · simp at hq
      cases targetHead with
      | none => exact .pure
      | some targetHead => exact edgeTarget_notices chain head targetHead (by omega)

theorem edges_notices {source : Option (KeyPath (Span π))} {p : List Char} (hn : n ≤ p.length)
    (hsource : ∀ path ∈ source, path.Within F.cover n p.length) :
    Notices F.toTape (State.At F p []) (edges source) :=
  .mapped (.repeating (I := Chain.Within F n) (fun _ _ h => nextEdge_reads h)
    (fun _ _ _ h => nextEdge_notices h) ⟨hn, by simp, hsource⟩)

/-! ## Edge indexes -/

theorem indexDigit_notices (digits : Option (List Char)) {p : List Char} (hn : n ≤ p.length) :
    Notices F.toTape (State.At F p []) (indexDigit (F.mark n) digits) := by
  refine .peekOnLine (.next (.reportToHere hn nofun) .reportToHere_stays .pure) fun b c hc =>
    .ite (fun _ => .retreat .pure) fun _ => .accept (.ite (fun _ => .pure) fun _ => ?_)
  exact .placeOf (ne_newline_of_visible hc)
    (.next (.reportToHere (by simp) nofun) .reportToHere_stays .pure)

theorem edgeChoice_notices {p : List Char} (hn : n ≤ p.length) :
    Notices F.toTape (State.At F p []) (edgeChoice (F.mark n)) := by
  refine .peekOnLine (.next (.reportToHere hn nofun) .reportToHere_stays .pure) fun b c hc =>
    .ite (fun _ => .accept ?_) fun _ => .ite (fun _ => .accept .pure) fun _ => ?_
  · refine .mapped (.repeating (fun digits q _ => indexDigit_reads _ digits q)
      (fun digits q hq _ => indexDigit_notices digits ?_) trivial)
    simp at hq
    omega
  · refine .lookedBehind fun i hi => .retreat (.before hi (ne_newline_of_visible hc) ?_)
    exact .next (.report (Nat.le_succ i) (List.getElem?_eq_some_iff.mp hi).1 nofun) .report_stays
      (.next (.reportToHere hn nofun) .reportToHere_stays .pure)

theorem indexEnd_notices {p : List Char} (hn : n ≤ p.length) :
    Notices F.toTape (State.At F p []) (indexEnd (F.mark n)) := by
  refine .peekOnLine (.reportToHere hn nofun) fun b c _ =>
    .ite (fun _ => .quiet (.adjusting _)) fun _ => ?_
  exact .retreat (.reportToHere hn nofun)

theorem edgeIndex_notices (p : List Char) :
    Notices F.toTape (State.At F ('[' :: p) []) edgeIndex := by
  refine .placeOf (by decide) (.call (edgeChoice_notices (by simp)) (edgeChoice_reads _ _)
    fun choice q hq _ => ?_)
  rw [List.length_cons] at hq
  cases choice with
  | none => exact .pure
  | some choice =>
    exact .call (indexEnd_notices (by omega)) (indexEnd_reads _ q) fun _ _ _ _ => .here .pure

end Diagram.Grammar
