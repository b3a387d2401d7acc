import Diagram.Proofs.Diagnostics.Container
import Diagram.Proofs.Order.Edge

/-!
The problems of keys, values and the containers that hold them are listed in order.

What is said of containers and keys rests on what the grammar of the values inside them does;
`valueWithin_listing` closes the circle. Behind an edge index, something may have been noticed
ahead; it is passed with the next visible character, or the text that is unexpected there closes
over it.
-/
namespace Diagram.Grammar

variable {F : Frame Nat} {m n : Nat} {p : List Char}

/-! ## Containers that are nested too deep -/

theorem skipContainer_listing (hF : F.meter = .index)
    (opening closing : Char) {unterminated : Cause}
    (hcode : ∀ inner, unterminated.code.closesOver inner = true) (hn : n < p.length) (hm : m ≤ n) :
    Listing (Listed m n) (State.At F p []) (skipContainer n opening closing unterminated)
      fun _ i => Foreseen F.text i i := by
  have hnotice : ∀ problems, Listed m n problems →
      Listed m (n + 1) (⟨.nestingTooDeep, .place n, p.length⟩ :: problems) :=
    fun _ h => h.notice hm (Nat.le_succ n) (.inr (Nat.lt_succ_self n))
  have hreads := repeating_ensures (I := fun nesting _ => 0 < nesting)
    (fun _ q h => skipCharacter_reads (F := F) opening closing q h) (p := p) Nat.one_pos
  refine .noteSkip (.reportToHere hF hnotice (.call
    (.quiet (.repeating (quiet_skipCharacter opening closing) 1) hreads hn) hreads
      fun _ q hq _ => ?_))
  have hforeseen : ∀ problems, Listed m q.length problems →
      Foreseen F.text q.length q.length problems :=
    fun _ h => h.foreseen (by omega) (Nat.le_succ _)
  exact .whenever (fun _ => .last (.closeToReach hF hcode (by omega) (Nat.le_succ _)
    (.inr (by omega)) (.pure hforeseen))) fun _ => hforeseen

/-! ## What follows a node -/

/-- The index `j` is `i`, or a visible character stands between them. -/
def Passes (text : List Char) (i j : Nat) : Prop :=
  j = i ∨ ∃ k c, i ≤ k ∧ k < j ∧ text[k]? = some c ∧ isBlank c = false

theorem trailingCharacter_passes (closing : Char) (u : Unit) (hpasses : Passes F.text n p.length) :
    Ensures (State.At F p []) (trailingCharacter closing u)
      (Steps F p.length (fun _ => Passes F.text n) fun _ => Passes F.text n) := by
  refine .peekOnLine (Steps.stop (Nat.le_refl _) hpasses) fun b c hc => .ite (fun _ => ?_) fun _ =>
    .retreat (Steps.stop (Nat.le_refl _) hpasses)
  have hpb : p.length ≤ (b ++ [] ++ p).length := by simp
  have hn : n ≤ p.length := by
    rcases hpasses with heq | ⟨k, _, hk, hlt, -⟩ <;> omega
  exact .accept (.known_of_consumed fun hknown => Steps.again (Nat.lt_succ_of_le hpb)
    (.inr ⟨_, c, Nat.le_trans hn hpb, Nat.lt_succ_self _, hknown, hc⟩))

/-- Text that should not stand behind a node closes over what has been noticed ahead. -/
theorem trailingText_listing (hF : F.meter = .index) (typeName : Option String) (closing : Char)
    {fallback : Cause} (hfallback : fallback.code = .unexpectedText) :
    Listing (Foreseen F.text p.length p.length) (State.At F p [])
      (trailingText typeName closing fallback) fun _ i => Foreseen F.text i i := by
  have hcode : ((typeName.map Cause.textAfter).getD fallback).code = .unexpectedText := by
    cases typeName with
    | none => exact hfallback
    | some name => rfl
  refine .here hF (.call (.still (.repeating (quiet_trailingCharacter closing) ()))
    (repeating_ensures (fun u q h => trailingCharacter_passes closing u h) (.inl rfl))
    fun _ q hq hpasses => .here hF (.whenever (fun hmoved => ?_) fun hstays _ h => ?_))
  · rcases hpasses with heq | ⟨k, c, hk, hkq, hc, hvisible⟩
    · exact absurd heq.symm (bne_iff_ne.mp hmoved)
    · -- the text begins with the character that something may have been noticed at
      refine .last (.report (fun _ h => h.close (hcode ▸ rfl) (.inr ⟨hq, fun j hj => ?_⟩))
        (.pure fun _ h => h.mono hq hq))
      have hjk := hj.le_of_visible hk hc hvisible
      omega
  · have heq : p.length = q.length := by simpa using hstays
    rwa [← heq]

/-! ## Keys -/

/-- The problems of a value that is found are listed in order. Where none is found, none of them
starts behind the index `m` but in front of where reading has come. -/
def ListedValue (text : List Char) (m : Nat) :
    Option (Value (Span Nat)) → Nat → List (Problem Nat) → Prop
  | none => Listed m
  | some _ => fun i => Foreseen text i i

/-- Values are read as they should be, and their problems are listed in order. At the brace of a
map, one is found. -/
structure ListsValues (F : Frame Nat) (value : Grammar Nat (Option (Value (Span Nat)))) : Prop where
  reads : Reads F (Value.Within F.cover) value
  listing : ∀ {m : Nat} {p : List Char}, m ≤ p.length →
    Listing (Listed m p.length) (State.At F p []) value (ListedValue F.text m)
  ofMap : ∀ {p : List Char}, F.OnLine p.length '{' →
    Listing (Foreseen F.text p.length p.length) (State.At F p []) value
      fun v i problems => v.isSome = true ∧ Foreseen F.text i i problems

/-- The problems of the parts of a key are listed in order, where nothing has been noticed ahead. -/
def ListsParts (F : Frame Nat) (g : Key (Span Nat) → Grammar Nat (Key (Span Nat))) : Prop :=
  ∀ m n key p, n ≤ p.length → key.range.start = F.mark n → key.PartsWithin F.cover n p.length →
    m ≤ p.length →
      Listing (Listed m p.length) (State.At F p []) (g key) fun _ i => Foreseen F.text i i

section

variable {value : Grammar Nat (Option (Value (Span Nat)))}

theorem mapBehind_listing (hvalue : ListsValues F value) (key : Key (Span Nat))
    (scalar : Scalar (Span Nat)) (p : List Char) :
    Listing (Foreseen F.text p.length p.length) (State.At F p []) (mapBehind value key scalar)
      fun _ i => Foreseen F.text i i := by
  refine .peekOnLine (.pure fun _ h => h) fun b c hc => .ite ?_ fun _ =>
    .retreat (.pure fun _ h => h)
  rintro rfl
  refine .accept (.consumed fun hknown => .putBack (by decide) (.mapped ?_))
  refine ((hvalue.ofMap (.of_visible hknown hc)).weaken fun _ _ _ h => h.2).given fun _ h => ?_
  exact h.mono (by simp) (by simp)

/-- Where no value is found, it is missing behind the colon and all that is in front of it. -/
theorem valueOfKey_listing (hF : F.meter = .index) (hvalue : ListsValues F value)
    (key : Key (Span Nat)) (hm : m < p.length) :
    Listing (Listed m p.length) (State.At F p []) (valueOfKey value key)
      fun _ i => Foreseen F.text i i := by
  refine .call (hvalue.listing (Nat.le_of_lt hm)) (hvalue.reads p) fun v q hq _ => ?_
  match v with
  | none =>
    refine .here hF (.reportMissingValue (Nat.lt_of_lt_of_le hm hq) (.pure fun _ h => ?_))
    exact h.settled (Nat.le_refl _)
  | some (.scalar scalar) => exact mapBehind_listing hvalue key scalar q
  | some (.sequence _) | some (.map _) => exact .pure fun _ h => h

theorem valueOfKey_ofMap (hvalue : ListsValues F value) (key : Key (Span Nat))
    (hline : F.OnLine p.length '{') :
    Listing (Foreseen F.text p.length p.length) (State.At F p []) (valueOfKey value key)
      fun _ i => Foreseen F.text i i := by
  refine .call (hvalue.ofMap hline) (hvalue.reads p) fun v q _ _ => ?_
  match v with
  | none => exact fun _ _ h => nomatch h.1
  | some (.scalar scalar) =>
    exact (mapBehind_listing hvalue key scalar q).given fun _ h => h.2
  | some (.sequence _) | some (.map _) => exact .pure fun _ h => h.2

theorem keyValue_listing (hF : F.meter = .index) (hvalue : ListsValues F value)
    {key : Key (Span Nat)} (hn : n ≤ p.length) (hstart : key.range.start = F.mark n) :
    Listing (Foreseen F.text p.length p.length) (State.At F p []) (keyValue value key)
      fun _ i => Foreseen F.text i i := by
  refine .peekLine (.pure fun _ h => h) fun b c _ hline => .ite ?_ fun _ => .ite ?_ fun _ =>
    .retreat (.pure fun _ h => h)
  · -- reading goes back in front of the brace, where something may have been noticed
    rintro rfl
    exact .retreat (.ite (fun _ => valueOfKey_ofMap hvalue key hline) fun _ => .pure fun _ h => h)
  · rintro rfl
    refine .accept (.within fun hlength => ?_)
    simp only [List.length_append, List.length_cons] at hlength
    rw [hstart, Listing.mark_index hF (by omega)]
    have hpb : p.length ≤ (b ++ p).length := by simp
    refine .passing hpb hpb (by decide) (.next (.whenever (fun _ => ?_) fun _ _ h => ?_)
      (.whenever_stays .reportToHere_stays) (valueOfKey_listing hF hvalue key (Nat.lt_succ_self _)))
    · exact .last (.closeToHere hF (fun _ => rfl) (Nat.le_succ _)
        (Nat.le_succ_of_le (Nat.le_succ _)) (.inl (Nat.le_trans hn hpb))
        (.pure fun _ h => h.mono (Nat.le_refl _) (Nat.le_succ _)))
    · exact h.mono (Nat.le_refl _) (Nat.le_succ _)

end

/-! ### Edge groups -/

theorem Listing.acceptBehind {β : Type} {J : List (Problem Nat) → Prop}
    {K : β → Nat → List (Problem Nat) → Prop} {c : Char} {f : Behind → Grammar Nat β}
    (hfound : ∀ q, p.length ≤ q.length → Listing J (State.At F (c :: q) []) (f .found) K)
    (hother : Listing J (State.At F p []) (f .other) K)
    (hlineEnd : Listing J (State.At F p []) (f .lineEnd) K) :
    Listing J (State.At F p []) (Grammar.acceptBehind c >>= f) K :=
  .step (.looking .peekOnLine .pure fun _ => .ite .moved .moved)
    (.acceptBehind hfound hother hlineEnd)

theorem groupPath_listing (hF : F.meter = .index) (key : Key (Span Nat)) (p : List Char) :
    Listing (Foreseen F.text p.length p.length) (State.At F p []) (groupPath key)
      fun _ i => Foreseen F.text i i := by
  refine .acceptBehind (fun q hq => .passing hq hq (by decide) ?_) (.pure fun _ h => h)
    (.pure fun _ h => h)
  refine .call ((path_listing hF (Nat.le_succ _)).given fun _ h => ?_) (path_reads _)
    fun path r hr _ => .pure fun _ h => ?_
  · exact h.mono (Nat.le_refl q.length) (Nat.le_succ _)
  · exact h.foreseen (Nat.le_of_succ_le hr) (Nat.le_succ _)

theorem groupIndex_listing (hF : F.meter = .index) (key : Key (Span Nat)) (p : List Char) :
    Listing (Foreseen F.text p.length p.length) (State.At F p []) (groupIndex key)
      fun _ i => Foreseen F.text i i := by
  refine .acceptBehind (fun q hq => .passing hq hq (by decide) ?_) (groupPath_listing hF key p)
    (.pure fun _ h => h)
  refine .call (edgeIndex_listing hF (Nat.le_refl q.length)) (edgeIndex_reads q)
    fun index r hr _ => ?_
  exact (groupPath_listing hF _ r).given fun _ h => h.mono (by omega) (Nat.le_refl _)

theorem groupParts_listing (hF : F.meter = .index) {key : Key (Span Nat)} (hn : n ≤ p.length)
    (hstart : key.range.start = F.mark n) (hm : m ≤ p.length) :
    Listing (Listed m p.length) (State.At F p []) (groupParts key)
      fun _ i => Foreseen F.text i i := by
  refine .call (path_listing hF hm) (path_reads p) fun source q hq hsource => ?_
  have hsource' : ∀ x ∈ source, x.Within F.cover n q.length :=
    fun x hx => (hsource x hx).mono hn (Nat.le_refl _)
  refine .call (edges_listing hF (Nat.le_trans hm hq) (Nat.le_trans hn hq) hsource')
    (edges_reads (by omega) hsource') fun edges r hr _ => ?_
  have hopen : Listing (Listed m r.length) (State.At F r [])
      (reportToHere .unterminatedEdgeGroup key.range.start >>= fun _ =>
        Pure.pure ({ key with edges }, false)) fun _ i => Foreseen F.text i i := by
    refine .within fun hlength => ?_
    rw [List.length_nil] at hlength
    rw [hstart, Listing.mark_index hF (by omega)]
    refine Listing.given (.closeToHere (m := r.length) hF (fun _ => rfl) (Nat.le_refl _)
      (Nat.le_succ _) (.inl ?_) (.pure fun _ h => h.settled (Nat.le_refl _))) fun _ h => h.upto ?_
    · exact Nat.le_trans hn (Nat.le_trans hq hr)
    · exact Nat.le_trans hm (Nat.le_trans hq hr)
  refine .acceptBehind (fun x hx => ?_) hopen hopen
  refine (groupIndex_listing hF _ (')' :: x)).given fun _ h => ?_
  exact (h.upto (by omega)).settled (Nat.le_succ_of_le hx)

section

variable {value : Grammar Nat (Option (Value (Span Nat)))}

theorem edgeGroup_listing (hF : F.meter = .index) (hgroup : F.inGroup = false)
    (hvalue : ListsValues F value) : ListsParts F (edgeGroup value) := by
  intro m n key p hn hstart hkey hm
  refine .setGroup (.call (groupParts_listing (F := F.grouped true) hF hn hstart hm)
    (groupParts_keeps (F := F.grouped true) hn hkey) fun r q hq hr => ?_)
  obtain ⟨key', goesOn⟩ := r
  refine .setGroup ?_
  rw [Frame.grouped_grouped hgroup]
  refine .ite (fun _ => ?_) fun _ => .pure fun _ h => h
  exact keyValue_listing hF hvalue (by omega) (hr.1 ▸ hstart)

theorem keyBehindPath_listing (hF : F.meter = .index) (hgroup : F.inGroup = false)
    (hvalue : ListsValues F value) : ListsParts F (keyBehindPath value) := by
  intro m n key p hn hstart hkey hm
  have hplain : ∀ problems, Listed m p.length problems →
      Foreseen F.text p.length p.length problems :=
    fun _ h => h.foreseen hm (Nat.le_succ _)
  refine .peekOnLine (.pure hplain) fun b c _ => .ite (fun _ => .accept ?_) fun _ =>
    .ite (fun _ => .retreat ?_) fun _ => .retreat ?_
  · refine (edgeGroup_listing hF hgroup hvalue m n key _ (by simp; omega) hstart
      (hkey.mono (by simp; omega)) (by simp; omega)).given fun _ h => ?_
    exact h.mono (Nat.le_refl m) (by simp; omega)
  · refine .call (edges_listing hF hm hn hkey.1) (edges_reads hn hkey.1) fun edges q hq _ => ?_
    refine (keyValue_listing hF hvalue (Nat.le_trans hn hq) ?_).given fun _ h => ?_
    · exact hstart
    · exact h.foreseen (Nat.le_trans hm hq) (Nat.le_succ _)
  · exact (keyValue_listing hF hvalue hn hstart).given hplain

theorem keyBehindAmpersand_listing (hF : F.meter = .index) (hgroup : F.inGroup = false)
    (hvalue : ListsValues F value) : ListsParts F (keyBehindAmpersand value) := by
  intro m n key p hn hstart hkey hm
  refine .peek (.pure fun _ h => h.foreseen hm (Nat.le_succ _)) fun c => .ite (fun _ => .accept ?_)
    fun _ => .retreat ?_
  · exact (edgeGroup_listing hF hgroup hvalue m n key (c :: p) (Nat.le_succ_of_le hn) hstart
      (hkey.mono (Nat.le_succ _)) (Nat.le_succ_of_le hm)).given
      fun _ h => h.mono (Nat.le_refl m) (Nat.le_succ _)
  · refine .call (path_listing hF hm) (path_reads p) fun path q hq hpath => ?_
    exact keyBehindPath_listing hF hgroup hvalue m n _ q (Nat.le_trans hn hq) hstart
      (hkey.behindPath hn hq hpath) (Nat.le_trans hm hq)

theorem keyParts_listing (hF : F.meter = .index) (hgroup : F.inGroup = false)
    (hvalue : ListsValues F value) : ListsParts F (keyParts value) := by
  intro m n key p hn hstart hkey hm
  refine .peek (.pure fun _ h => h.foreseen hm (Nat.le_succ _)) fun c => .ite (fun _ => .accept ?_)
    fun _ => .retreat ?_
  · exact (keyBehindAmpersand_listing hF hgroup hvalue m n { key with ampersand := true } (c :: p)
      (Nat.le_succ_of_le hn) hstart (hkey.mono (Nat.le_succ _)) (Nat.le_succ_of_le hm)).given
      fun _ h => h.mono (Nat.le_refl m) (Nat.le_succ _)
  · exact keyBehindAmpersand_listing hF hgroup hvalue m n key p hn hstart hkey hm

theorem key_listing (hF : F.meter = .index) (hgroup : F.inGroup = false)
    (hvalue : ListsValues F value) (hm : m ≤ p.length) :
    Listing (Listed m p.length) (State.At F p []) (key value) fun _ i => Foreseen F.text i i := by
  refine .within fun hlength => .here hF ?_
  have hstart := Listing.mark_index hF (i := p.length) (by omega)
  refine .call (keyParts_listing hF hgroup hvalue m p.length _ p (Nat.le_refl _) hstart.symm
    (.empty _) hm) (keyParts_reads hgroup hvalue.reads _ _ p (Nat.le_refl _) (.empty _))
    fun k q _ _ => ?_
  exact .here hF (.ite (fun _ => .pure fun _ h => h) fun _ => .pure fun _ h => h)

end

/-! ## Maps and sequences -/

/-- A node of a container starts with a remark, or at the character that was read. -/
theorem Listing.nodeStart {β : Type} {K : β → Nat → List (Problem Nat) → Prop} {c : Char}
    {f : Start (Span Nat) → Grammar Nat β} (hF : F.meter = .index) (hc : isBlank c = false)
    (hremark : ∀ (r : Option (Remark (Span Nat))) (q : List Char),
      Listing (Foreseen F.text q.length q.length) (State.At F q []) (f (.remark r)) K)
    (hnode : Listing (Listed p.length p.length) (State.At F p []) (f .node) K) :
    Listing (Listed p.length p.length) (State.At F (c :: p) []) (Grammar.nodeStart c >>= f) K := by
  have hstart : Listing (Listed p.length p.length) (State.At F (c :: p) [])
      (startNode c >>= f) K := by
    rw [startNode, bind_assoc]
    exact .putBack (ne_newline_of_visible hc) hnode
  have hbehind : ∀ (r : Option (Remark (Span Nat))) (q : List Char), p.length + 1 ≤ q.length →
      Listing (Listed p.length q.length) (State.At F q []) (f (.remark r)) K :=
    fun r q hq => (hremark r q).given fun _ h =>
      h.foreseen (Nat.le_of_succ_le hq) (Nat.le_succ _)
  rw [Grammar.nodeStart]
  by_cases hhash : c = '#'
  · subst hhash
    rw [if_pos rfl, bind_assoc]
    exact .call (.quiet quiet_comment (comment_reads p) (Nat.le_succ _)) (comment_reads p)
      fun _ q hq _ => hbehind _ q hq
  rw [if_neg hhash]
  by_cases hquote : c = '"'
  · subst hquote
    rw [if_pos rfl, bind_assoc]
    refine .acceptExactly ?_ hstart
    simp only [if_true, bind_assoc, pure_bind]
    exact .call (blockComment_listing hF (Nat.le_refl _)) (blockComment_reads p)
      fun _ q hq _ => hbehind _ q hq
  rw [if_neg hquote]
  by_cases hpoint : c = '.'
  · subst hpoint
    rw [if_pos rfl, bind_assoc]
    refine .acceptExactly ?_ hstart
    simp only [if_true, bind_assoc, pure_bind]
    exact .call (spreadSubstitution_listing hF (Nat.le_refl _)) (spreadSubstitution_reads p)
      fun _ q hq _ => hbehind _ q hq
  · rw [if_neg hpoint]
    exact hstart

section

variable {value : Grammar Nat (Option (Value (Span Nat)))}

theorem entry_listing (hF : F.meter = .index) (hgroup : F.inGroup = false)
    (hvalue : ListsValues F value) {c : Char} (hc : isBlank c = false) (p : List Char) :
    Listing (Listed p.length p.length) (State.At F (c :: p) []) (entry value c)
      fun _ i => Foreseen F.text i i :=
  .nodeStart hF hc (fun _ _ => .pure fun _ h => h)
    (.mapped (key_listing hF hgroup hvalue (Nat.le_refl _)))

theorem item_listing (hF : F.meter = .index) (hvalue : ListsValues F value) {c : Char}
    (hc : isBlank c = false) (p : List Char) :
    Listing (Listed p.length p.length) (State.At F (c :: p) []) (item value c)
      fun _ i => Foreseen F.text i i := by
  refine .nodeStart hF hc (fun _ _ => .pure fun _ h => h)
    (.call (hvalue.listing (Nat.le_refl _)) (hvalue.reads p) fun v q hq _ => ?_)
  cases v with
  | some v => exact .pure fun _ h => h
  | none =>
    have hnotice : ∀ problems stop, Listed p.length q.length problems →
        Listed q.length q.length (⟨.invalidItemStart c, .place q.length, stop⟩ :: problems) :=
      fun _ _ h => h.notice hq (Nat.le_succ _) (.inl (Nat.le_refl _))
    refine .here hF (.read (.reportToHere hF (fun _ => hnotice _ _) (.pure fun _ h => ?_))
      fun x => .reportToHere hF (fun _ => hnotice _ _) (.pure fun _ h => ?_))
    · exact h.settled (Nat.le_refl _)
    · exact h.settled (Nat.le_succ _)

theorem entryLine_listing (hF : F.meter = .index) (hgroup : F.inGroup = false)
    (hvalue : ListsValues F value) (entries : List (Entry (Span Nat))) {c : Char}
    (hc : isBlank c = false) (p : List Char) :
    Listing (Listed p.length p.length) (State.At F (c :: p) []) (entryLine value entries c)
      fun _ i => Foreseen F.text i i := by
  refine .call (entry_listing hF hgroup hvalue hc p) (entry_reads hgroup hvalue.reads hc p)
    fun e q _ _ => ?_
  split
  · exact .pure fun _ h => h
  · exact .mapped (trailingText_listing hF _ _ rfl)

theorem itemLine_listing (hF : F.meter = .index) (hvalue : ListsValues F value)
    (items : List (Item (Span Nat))) {c : Char} (hc : isBlank c = false) (p : List Char) :
    Listing (Listed p.length p.length) (State.At F (c :: p) []) (itemLine value items c)
      fun _ i => Foreseen F.text i i := by
  refine .call (item_listing hF hvalue hc p) (item_reads hvalue.reads hc p) fun x q _ _ => ?_
  split
  · exact .pure fun _ h => h
  · exact .mapped (trailingText_listing hF _ _ rfl)

/-- What has been noticed ahead is passed in front of the next node. -/
theorem Listing.readNode {β : Type} {K : β → Nat → List (Problem Nat) → Prop}
    {f : Option Char → Grammar Nat β}
    (hnone : p.length ≤ F.text.length → Listing (Listed F.text.length F.text.length)
      (State.At F F.text.reverse []) (f none) K)
    (hsome : ∀ q c, p.length ≤ q.length → isBlank c = false →
      Listing (Listed q.length q.length) (State.At F (c :: q) []) (f (some c)) K) :
    Listing (Foreseen F.text p.length p.length) (State.At F p [])
      (Grammar.readVisible >>= f) K := by
  refine .readVisible (fun hp => (hnone hp).given fun _ h => h.ended hp hp) fun b c hc => ?_
  have hpb : p.length ≤ (b ++ p).length := by simp
  exact .passing hpb hpb hc (hsome (b ++ p) c hpb hc)

/-- A container that is not closed closes over all that has been noticed in it. -/
theorem Listing.reportOpen {β : Type} {b : β} {cause : Cause} (hF : F.meter = .index)
    (hcode : ∀ inner, cause.code.closesOver inner = true) (hn : n ≤ F.text.length) :
    Listing (Listed F.text.length F.text.length) (State.At F F.text.reverse [])
      (Grammar.reportToReach cause n >>= fun _ => Pure.pure b) fun _ i => Foreseen F.text i i := by
  have hend : F.text.length ≤ F.text.reverse.length := Nat.le_of_eq List.length_reverse.symm
  exact .closeToReach hF hcode hend (Nat.le_succ_of_le hend) (.inl hn)
    (.pure fun _ h => h.settled hend)

theorem mapStep_listing (hF : F.meter = .index) (hgroup : F.inGroup = false)
    (hvalue : ListsValues F value) (opened : Option Nat) (entries : List (Entry (Span Nat)))
    (hopened : ∀ n ∈ opened, n ≤ p.length) :
    Listing (Foreseen F.text p.length p.length) (State.At F p []) (mapStep value opened entries)
      fun _ i => Foreseen F.text i i := by
  have hpassed : ∀ (q : List Char) (c : Char) problems, Listed q.length q.length problems →
      Foreseen F.text (c :: q).length (c :: q).length problems :=
    fun q _ _ h => h.settled (Nat.le_succ q.length)
  refine .readNode (fun hp => ?_) fun q c hq hc => .ite (fun _ => .pure (hpassed q c)) fun _ =>
    .ite ?_ fun _ => entryLine_listing hF hgroup hvalue entries hc q
  · cases opened with
    | none => exact .pure fun _ h => h.settled (Nat.le_of_eq List.length_reverse.symm)
    | some n => exact .reportOpen hF (fun _ => rfl) (Nat.le_trans (hopened n rfl) hp)
  · rintro rfl
    refine .ite (fun _ => .pure (hpassed q '}')) fun _ => ?_
    rw [reportStrayMapEnd, bind_assoc]
    refine .placeOf hF (by decide) (.reportToHere hF (H := Listed q.length q.length) (fun _ h => ?_)
      (.pure (hpassed q '}')))
    exact h.notice (Nat.le_refl _) (Nat.le_succ _) (.inl (Nat.le_refl _))

theorem sequenceStep_listing (hF : F.meter = .index) (hvalue : ListsValues F value)
    (items : List (Item (Span Nat))) (hn : n ≤ p.length) :
    Listing (Foreseen F.text p.length p.length) (State.At F p []) (sequenceStep value n items)
      fun _ i => Foreseen F.text i i := by
  have hpassed : ∀ (q : List Char) (c : Char) problems, Listed q.length q.length problems →
      Foreseen F.text (c :: q).length (c :: q).length problems :=
    fun q _ _ h => h.settled (Nat.le_succ q.length)
  exact .readNode (fun hp => .reportOpen hF (fun _ => rfl) (Nat.le_trans hn hp)) fun q c hq hc =>
    .ite (fun _ => .pure (hpassed q c)) fun _ => .ite (fun _ => .pure (hpassed q c)) fun _ =>
    itemLine_listing hF hvalue items hc q

theorem map_listing (hF : F.meter = .index) (hgroup : F.inGroup = false)
    (hvalue : F.depth < F.limit → ListsValues F.deeper value) (hm : m ≤ p.length) :
    Listing (Listed m p.length) (State.At F ('{' :: p) []) (map value)
      fun _ i => Foreseen F.text i i := by
  refine .outsideGroup hgroup
    (.placeOf hF (by decide) (.atLimit (.ite (fun _ => ?_) fun hroom => ?_)))
  · exact .call (skipContainer_listing hF _ _ (fun _ => rfl) (Nat.lt_succ_self _) hm)
      (skipContainer_reads _ _ _ _ _) fun _ _ _ _ => .here hF (.pure fun _ h => h)
  · have hvalue := hvalue (by simpa using hroom)
    have hreads := fun entries (q : List Char)
        (h : EntriesWithin F.deeper p.length entries q.length) =>
      mapStep_reads (F := F.deeper) hgroup hvalue.reads (some p.length) h
    refine .nested (.looping (H := fun i => Foreseen F.text i i) hreads (fun entries q hq _ =>
      mapStep_listing (F := F.deeper) hF hgroup hvalue (some p.length) entries ?_)
      (Nat.le_succ p.length) fun _ h => ?_)
      (repeating_ensures hreads (Nat.le_succ p.length)) fun _ _ _ _ => .here hF (.pure fun _ h => h)
    · intro n hn
      obtain rfl := Option.some.inj hn
      exact Nat.le_of_succ_le hq
    · exact (h.upto hm).settled (Nat.le_succ _)

theorem fileMap_listing (hF : F.meter = .index) (hgroup : F.inGroup = false)
    (hvalue : ListsValues F value) (p : List Char) :
    Listing (Foreseen F.text p.length p.length) (State.At F p []) (fileMap value)
      fun _ i => Foreseen F.text i i := by
  have hreads := fun entries (q : List Char) (h : EntriesWithin F p.length entries q.length) =>
    mapStep_reads hgroup hvalue.reads none h
  refine .outsideGroup hgroup (.here hF (.call (.looping (H := fun i => Foreseen F.text i i) hreads
    (fun entries q _ _ => ?_) (Nat.le_refl p.length) fun _ h => h)
    (repeating_ensures hreads (Nat.le_refl p.length)) fun _ _ _ _ => .here hF (.pure fun _ h => h)))
  exact mapStep_listing hF hgroup hvalue none entries (by simp)

theorem sequence_listing (hF : F.meter = .index)
    (hvalue : F.depth < F.limit → ListsValues F.deeper value) (hm : m ≤ p.length) :
    Listing (Listed m p.length) (State.At F ('[' :: p) []) (sequence value)
      fun _ i => Foreseen F.text i i := by
  refine .placeOf hF (by decide) (.atLimit (.ite (fun _ => ?_) fun hroom => ?_))
  · exact .call (skipContainer_listing hF _ _ (fun _ => rfl) (Nat.lt_succ_self _) hm)
      (skipContainer_reads _ _ _ _ _) fun _ _ _ _ => .here hF (.pure fun _ h => h)
  · have hvalue := hvalue (by simpa using hroom)
    have hreads := fun items (q : List Char) (h : ItemsWithin F.deeper p.length items q.length) =>
      sequenceStep_reads (F := F.deeper) hvalue.reads p.length h
    refine .nested (.looping (H := fun i => Foreseen F.text i i) hreads (fun items q hq _ =>
      sequenceStep_listing (F := F.deeper) hF hvalue items ?_) (Nat.le_succ p.length) fun _ h => ?_)
      (repeating_ensures hreads (Nat.le_succ p.length)) fun _ _ _ _ => .here hF (.pure fun _ h => h)
    · exact Nat.le_of_succ_le hq
    · exact (h.upto hm).settled (Nat.le_succ _)

end

/-! ## Values -/

theorem valueFrom_listing {inner : Grammar Nat (Option (Value (Span Nat)))} (hF : F.meter = .index)
    (hgroup : F.inGroup = false) (hinner : F.depth < F.limit → ListsValues F.deeper inner)
    {c : Char} (hc : isBlank c = false) (hm : m ≤ p.length) :
    Listing (Listed m p.length) (State.At F (c :: p) []) (valueFrom inner c)
      (ListedValue F.text m) := by
  refine .ite ?_ fun _ => .ite ?_ fun _ => .putBack (ne_newline_of_visible hc) ?_
  · rintro rfl
    exact .mapped (sequence_listing hF hinner hm)
  · rintro rfl
    exact .mapped (map_listing hF hgroup hinner hm)
  · refine .call (valueText_listing hF hm) (valueText_reads p) fun t q hq _ => .pure fun _ h => ?_
    cases t with
    | none => exact h
    | some t => exact h.foreseen (Nat.le_trans hm hq) (Nat.le_succ _)

theorem valueWithin_succ_listing {room : Nat} (hF : F.meter = .index) (hgroup : F.inGroup = false)
    (hinner : F.depth < F.limit → ListsValues F.deeper (valueWithin room)) :
    ListsValues F (valueWithin (room + 1)) where
  reads := valueWithin_succ_reads hgroup fun hdepth => (hinner hdepth).reads
  listing := by
    intro m p hm
    refine .outsideGroup hgroup (.peekOnLine (.pure fun _ h => h) fun b c hc => .accept ?_)
    have hpb : p.length ≤ (b ++ p).length := by simp
    rw [List.append_nil]
    exact (valueFrom_listing hF hgroup hinner hc (Nat.le_trans hm hpb)).given
      fun _ h => h.mono (Nat.le_refl m) hpb
  ofMap := by
    intro p hline
    refine .outsideGroup hgroup (.peekOnLineFound hline fun b => .accept ?_)
    have hpb : p.length ≤ (b ++ p).length := by simp
    have hmap : Listing (Listed (b ++ p).length (b ++ p).length) (State.At F ('{' :: (b ++ p)) [])
        (map (valueWithin room)) fun _ i => Foreseen F.text i i :=
      map_listing hF hgroup hinner (Nat.le_refl _)
    refine .ite (fun h => absurd h (by decide)) fun _ => .ite (fun _ => ?_) fun h => absurd rfl h
    exact .mapped (.passing hpb hpb (by decide) (hmap.weaken fun _ _ _ h => ⟨rfl, h⟩))

/-- With room for all the containers that may be entered, the problems of a value are listed in
order. -/
theorem valueWithin_listing (hF : F.meter = .index) (room : Nat) (hgroup : F.inGroup = false)
    (hroom : F.limit ≤ F.depth + room) : ListsValues F (valueWithin (room + 1)) := by
  induction room generalizing F with
  | zero => exact valueWithin_succ_listing hF hgroup fun hdepth => absurd hdepth (by omega)
  | succ room ih =>
    refine valueWithin_succ_listing hF hgroup fun _ => ih (F := F.deeper) hF hgroup ?_
    simp only [Frame.deeper]
    omega

theorem value_listing (hF : F.meter = .index) (hgroup : F.inGroup = false) :
    ListsValues F value := by
  have hwithin := valueWithin_listing hF F.limit hgroup (Nat.le_add_left _ _)
  exact ⟨value_reads hgroup,
    fun hm => .step (fun _ => rfl) (.asking (fun _ hs => hs.limit) (hwithin.listing hm)),
    fun hline => .step (fun _ => rfl) (.asking (fun _ hs => hs.limit) (hwithin.ofMap hline))⟩

end Diagram.Grammar
