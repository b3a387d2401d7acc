import Diagram.Proofs.Clean.Nameless
import Diagram.Proofs.Sound.Parse

/-!
What becomes of every character of a source in which nothing is wrong. It belongs to an entry, it
stands between entries, or it is part of a text that names nothing.
-/
namespace Diagram

namespace Grammar

variable {π : Type} {F : Frame π} {p : List Char}

/-! ## What follows an entry -/

/-- At the index `i`, the line holds nothing but the next node, a comment or the end of a
container. -/
def LineEnds (F : Frame π) (closing : Char) (i : Nat) : Prop :=
  ∀ c, F.OnLine i c → c = ';' ∨ c = closing ∨ c = '#'

theorem trailingCharacter_consumes (closing : Char) (n : Unit) (u : List Char) :
    Ensures (State.At F (u ++ p) []) (trailingCharacter closing n)
      (Consumes F p (Next.Fits (fun _ _ => True)
        fun _ u => LineEnds F closing (u ++ p).length)) := by
  refine .peekLine (fun h => .consumed u rfl fun c hc => absurd hc (h c)) fun b c _ hc =>
    .ite (fun _ => .accept (.consumed (c :: (b ++ u)) (by simp) trivial)) fun hends => .retreat ?_
  refine .consumed u rfl fun c' hc' => ?_
  obtain rfl := hc.unique hc'
  simpa [Decidable.or_iff_not_imp_left] using hends

/-- Where nothing is reported behind a node, nothing follows it on its line. -/
theorem trailingText_clean [DecidableEq π] (typeName : Option String) (closing : Char)
    (fallback : Cause) (p : List Char) :
    Ensures (State.At F p []) (trailingText typeName closing fallback)
      (IfClean fun _ s => s.At F p [] ∧ LineEnds F closing p.length) := by
  refine .here (.callClean (repeating_consumes (M := fun _ _ => True)
    (fun _ _ _ => trailingCharacter_reads closing _ _)
    (fun _ u _ => trailingCharacter_consumes closing _ u) trivial trivial) fun _ u hends =>
      .here ?_)
  match u with
  | [] =>
    rw [List.nil_append, bne_self_eq_false]
    exact .pure fun s hs _ => ⟨hs, hends⟩
  | c :: u =>
    intro s hs hclean
    have hne : F.mark p.length ≠ F.mark (c :: u ++ p).length :=
      F.mark_ne (by simp only [List.cons_append, List.length_cons, List.length_append]; omega)
        hs.reader.length_le
    rw [bne_iff_ne.mpr hne] at hclean
    cases hclean

/-! ## Entries -/

/-- Where a substitution that spreads is malformed and nothing is reported, it ends with its dollar
sign. -/
theorem spreadSubstitution_consumes (p : List Char) :
    Ensures (State.At F ('$' :: '.' :: '.' :: '.' :: p) []) (substitution true)
      (Consumes F p fun r u => (∀ x ∈ r, x.range = F.cover p.length (u ++ p).length) ∧
        (r = none → u = ['$', '.', '.', '.'])) := by
  refine .placeOf (by decide) (.beforeAll (b := ['$']) (p := p) rfl rfl (by simp) ?_)
  refine .peekOnLine (.consumed ['$', '.', '.', '.'] rfl ⟨by simp, fun _ => rfl⟩) fun b c _ =>
    .ite (fun _ => .retreat .unclean_toReach) fun _ => .accept ?_
  refine .callRead (path_reads _) fun path u _ =>
    .callRead (substitutionEnd_reads _ _) fun _ w _ => ?_
  refine .here (.consumed (w ++ (u ++ c :: (b ++ ['$', '.', '.', '.']))) (by simp) ⟨?_, by simp⟩)
  intro x hx
  obtain rfl := Option.some.inj hx
  simp [Frame.cover]

/-- What the start of a node consumes: nothing of a key or a value, and all that a remark covers. -/
def StartFits (F : Frame π) (p : List Char) : Start (Span π) → List Char → Prop
  | .node, u => u = []
  | .remark (some r), u => r.toEntry.range = F.cover p.length (u ++ p).length
  | .remark none, u => u = ['$', '.', '.', '.']

theorem nodeStart_consumes {c : Char} (hc : isBlank c = false) (p : List Char) :
    Ensures (State.At F (c :: p) []) (nodeStart c) (Consumes F p (StartFits F p)) := by
  have hnode : Ensures (State.At F (c :: p) []) (startNode c) (Consumes F p (StartFits F p)) :=
    .putBack (ne_newline_of_visible hc) (.consumed [] rfl rfl)
  refine .ite ?_ fun _ => .ite ?_ fun _ => .ite ?_ fun _ => hnode
  · rintro rfl
    exact .callRead (comment_covers p) fun comment u hrange =>
      .consumed (u ++ ['#']) (by simp)
        (by simpa [StartFits, Remark.toEntry, Entry.range] using hrange)
  · rintro rfl
    refine .acceptExactly ?_ hnode
    exact .callClean (.consumes (v := ['"', '"']) (p := '"' :: p) (blockComment_covers p)
      (Nat.le_refl _) fun _ _ h => h) fun comment u hrange =>
        .consumed (u ++ ['"']) (by simp)
          (by simpa [StartFits, Remark.toEntry, Entry.range] using hrange)
  · rintro rfl
    refine .acceptExactly ?_ hnode
    refine .callClean (spreadSubstitution_consumes p) fun r u hspread => ?_
    obtain ⟨hrange, hnone⟩ := hspread
    cases r with
    | none => exact .consumed u rfl (hnone rfl)
    | some x => exact .consumed u rfl (hrange x rfl)

section

variable {value : Grammar π (Option (Value (Span π)))} (hgroup : F.inGroup = false)
  (hvalue : Reads F (Value.Within F.cover) value)

include hgroup hvalue

/-- A key covers all that is read of it. -/
theorem key_consumes (p : List Char) :
    Ensures (State.At F p []) (key value) (Consumes F p fun k u =>
      (∀ x ∈ k, x.range = F.cover p.length (u ++ p).length) ∧ (k = none → NamelessAt F p u)) := by
  have hparts : Ensures (State.At F p [])
      (keyParts value (.empty ⟨F.mark p.length, F.mark p.length⟩))
      (Consumes F p fun k u => k.isNamed = false → NamelessAt F p u) := by
    intro s hs hclean
    obtain ⟨q, hq, hat, -⟩ := keyParts_reads hgroup hvalue _ _ p (Nat.le_refl _) (.empty _) s hs
    obtain ⟨u, rfl⟩ := consumed_append (v := []) hs hat hq
    refine ⟨u, hat, fun hunnamed => ?_⟩
    obtain ⟨w, hat', hw⟩ := keyParts_unnamed value hgroup _ p s hs hclean hunnamed
    obtain rfl : u = w := List.append_cancel_right (hat.reader.past.symm.trans hat'.reader.past)
    exact hw
  refine .here (.callClean hparts fun k u hu => .here (.ite (fun _ => ?_) fun hunnamed => ?_))
  · exact .consumed u rfl ⟨fun x hx => Option.some.inj hx ▸ rfl, by simp⟩
  · exact .consumed u rfl ⟨by simp, fun _ => hu (by simpa using hunnamed)⟩

/-- What an entry consumes: all that it covers, or text that names nothing. -/
def EntryFits (F : Frame π) (p : List Char) : Option (Entry (Span π)) → List Char → Prop
  | some e, u => e.range = F.cover p.length (u ++ p).length
  | none, u => NamelessAt F p u

theorem entry_consumes {c : Char} (hc : isBlank c = false) (p : List Char) :
    Ensures (State.At F (c :: p) []) (entry value c) (Consumes F p (EntryFits F p)) := by
  refine .callClean (nodeStart_consumes hc p) fun start u hu => ?_
  match start with
  | .remark (some r) => exact .consumed u rfl hu
  | .remark none =>
    refine .consumed u rfl (.inl ?_)
    rw [show u = _ from hu]
    exact .spread
  | .node =>
    obtain rfl : u = [] := hu
    refine .callClean (key_consumes hgroup hvalue p) fun k u ⟨hrange, hnone⟩ => ?_
    cases k with
    | none => exact .consumed u rfl (hnone rfl)
    | some k => exact .consumed u rfl (hrange k rfl)

end

/-! ## Maps of files -/

/-- What becomes of the character at the index `k`: it belongs to an entry, it stands between
entries, or it is part of a text that names nothing. -/
def Accounted (F : Frame π) (entries : List (Entry (Span π))) (k : Nat) : Prop :=
  (∃ e ∈ entries, ∃ i j, e.range = F.cover i j ∧ i ≤ k ∧ k < j) ∨
    (∃ c, F.text[k]? = some c ∧ (isBlank c = true ∨ c = ';')) ∨
    ∃ i j, i ≤ k ∧ k < j ∧ Nameless (F.text.extract i j)

/-- It is known what becomes of the characters consumed behind `p`. -/
def AllAccounted (F : Frame π) (p : List Char) (entries : List (Entry (Span π)))
    (u : List Char) : Prop :=
  ∀ k, p.length ≤ k → k < (u ++ p).length → Accounted F entries k

namespace AllAccounted

variable {entries : List (Entry (Span π))} {u w : List Char}

/-- What comes behind is accounted for in addition. -/
theorem append (hu : AllAccounted F p entries u) (hw : AllAccounted F (u ++ p) entries w) :
    AllAccounted F p entries (w ++ u) := by
  intro k hle hlt
  rcases Nat.lt_or_ge k (u ++ p).length with h | h
  · exact hu k hle h
  · exact hw k h (by simpa using hlt)

theorem mono {entries' : List (Entry (Span π))} (hu : AllAccounted F p entries u)
    (h : ∀ e ∈ entries, e ∈ entries') : AllAccounted F p entries' u :=
  fun k hle hlt => (hu k hle hlt).imp_left fun ⟨e, he, hcovers⟩ => ⟨e, h e he, hcovers⟩

/-- An entry accounts for what it covers. -/
theorem entry {e : Entry (Span π)} (he : e ∈ entries)
    (hrange : e.range = F.cover p.length (u ++ p).length) : AllAccounted F p entries u :=
  fun _ hle hlt => .inl ⟨e, he, _, _, hrange, hle, hlt⟩

theorem nameless (h : Nameless u.reverse)
    (htext : F.text.extract p.length (u ++ p).length = u.reverse) : AllAccounted F p entries u :=
  fun _ hle hlt => .inr (.inr ⟨_, _, hle, hlt, htext ▸ h⟩)

theorem between (hu : ∀ c ∈ u, isBlank c = true ∨ c = ';')
    (htext : F.text.extract p.length (u ++ p).length = u.reverse) : AllAccounted F p entries u := by
  intro k hle hlt
  have hk : F.text[k]? = u.reverse[k - p.length]? := by
    rw [← htext, List.extract_eq_take_drop, List.getElem?_take_of_lt (by omega),
      List.getElem?_drop, Nat.add_sub_cancel' hle]
  have hlength : k - p.length < u.reverse.length := by
    simp at hlt ⊢
    omega
  refine .inr (.inl ⟨u.reverse[k - p.length], by rw [hk, List.getElem?_eq_getElem hlength], ?_⟩)
  exact hu _ (List.mem_reverse.mp (List.getElem_mem hlength))

end AllAccounted

section

variable {value : Grammar π (Option (Value (Span π)))} (hgroup : F.inGroup = false)
  (hvalue : Reads F (Value.Within F.cover) value) [DecidableEq π]

include hgroup hvalue

theorem entryLine_accounts {entries : List (Entry (Span π))} {c : Char} {u : List Char}
    (hc : isBlank c = false) (hu : AllAccounted F p entries u) :
    Ensures (State.At F (c :: (u ++ p)) []) (entryLine value entries c)
      (Consumes F p (Next.Fits (AllAccounted F p) (AllAccounted F p))) := by
  refine .callClean (entry_consumes hgroup hvalue hc (u ++ p)) fun e w hw => ?_
  have hmore : ∀ e : Entry (Span π), e.range = F.cover (u ++ p).length (w ++ (u ++ p)).length →
      AllAccounted F p (e :: entries) (w ++ u) := by
    intro e hrange
    have hold : AllAccounted F p (e :: entries) u := hu.mono fun x hx => by simp [hx]
    exact hold.append (.entry (by simp) hrange)
  split
  · exact .consumed (w ++ u) (by simp) (hmore _ hw)
  · refine .bindClean (trailingText_clean _ _ _ _) fun _ => .of_and_right fun hline => ?_
    match e with
    | some e => exact .consumed (w ++ u) (by simp) (hmore e hw)
    | none =>
      refine .knownText (v := []) fun htext => .consumed (w ++ u) (by simp) ?_
      rcases hw with hnameless | hgreater
      · exact hu.append (.nameless hnameless htext)
      · have hends := hline '>' hgreater
        simp at hends

theorem mapStep_accounts {entries : List (Entry (Span π))} {u : List Char}
    (hu : AllAccounted F p entries u) :
    Ensures (State.At F (u ++ p) []) (mapStep value none entries)
      (Consumes F p (Next.Fits (AllAccounted F p) (AllAccounted F p))) := by
  refine .readOverBlanks (fun b hb _ => ?_) fun b c hb hc => ?_
  · refine .knownText (v := []) fun htext => .consumed (b ++ u) (by simp) ?_
    exact hu.append (.between (fun x hx => .inl (hb x hx)) htext)
  · refine .ite (fun hsemicolon => ?_) fun _ => .ite (fun hclosing => ?_) fun _ => ?_
    · refine .knownText (v := []) (u := c :: b) fun htext => .consumed (c :: (b ++ u)) (by simp) ?_
      refine hu.append (w := c :: b) (.between (fun x hx => ?_) htext)
      rcases List.mem_cons.mp hx with rfl | hx
      · exact .inr hsemicolon
      · exact .inl (hb x hx)
    · subst hclosing
      rw [reportStrayMapEnd, bind_assoc]
      exact .placeOf (by decide) .unclean_toHere
    · refine .knownText (v := [c]) (u := b) fun htext => ?_
      have hblanks := hu.append (.between (fun x hx => .inl (hb x hx)) htext)
      simpa using entryLine_accounts hgroup hvalue hc hblanks

/-- **Files**: where nothing is wrong, it is known what becomes of every character. -/
theorem fileMap_accounts :
    Ensures (State.At F [] []) (fileMap value)
      (IfClean fun m _ => ∀ k < F.text.length, Accounted F m.entries k) := by
  have hentries : Ensures (State.At F [] []) (fileMap value)
      (Consumes F [] fun m u => AllAccounted F [] m.entries u) := by
    refine .outsideGroup hgroup (.here (.callClean (repeating_consumes (M := EntriesWithin F 0)
      (fun _ _ h => mapStep_reads hgroup hvalue none h)
      (fun _ _ h => mapStep_accounts hgroup hvalue h) (Nat.le_refl _) ?_) fun entries u hu => ?_))
    · exact fun k _ hlt => absurd hlt (Nat.not_lt_zero k)
    · exact .here (.consumed u rfl (hu.mono fun e he => List.mem_reverse.mpr he))
  intro s hs hclean k hk
  obtain ⟨u, hat, hu⟩ := hentries s hs hclean
  obtain ⟨-, hend⟩ := fileMap_finishes hgroup hvalue [] s hs
  have hlength : (u ++ []).length = F.text.length := by
    rw [← hat.reader.past, hend.stands.reader.past, List.length_reverse]
  exact hu k (Nat.zero_le k) (hlength ▸ hk)

end

end Grammar

/-! ## Whole files -/

/-- **Nothing but text that names nothing is dropped in silence**: in a source in which nothing is
found wrong, every character belongs to an entry of the tree, stands between entries as a blank or a
semicolon, or is part of a text that names nothing. -/
theorem parse_covers (label : String) (source : List Delivery) (options : Options)
    (hclean : (parse label source options).diagnostics = []) (k : Nat) (c : Char)
    (hk : (delivered source)[k]? = some c) :
    (∃ e ∈ (parse label source options).map.entries, ∃ i j,
        e.range = rangeBetween label options.counting (delivered source) i j ∧ i ≤ k ∧ k < j) ∨
      isBlank c = true ∨ c = ';' ∨
      ∃ i j, i ≤ k ∧ k < j ∧ Nameless ((delivered source).extract i j) := by
  have hstart := State.ofSource_at options.counting.meter_lawful source options.maxDepth
  have hproblems : (readFile options.counting.meter source options.maxDepth).2.problems = [] := by
    simpa [parse, State.diagnostics] using hclean
  obtain ⟨hlt, -⟩ := List.getElem?_eq_some_iff.mp hk
  rcases Grammar.fileMap_accounts rfl (Grammar.value_reads rfl) _ hstart hproblems k hlt with
    ⟨e, he, i, j, hrange, hik, hkj⟩ | ⟨x, hx, hbetween⟩ | hnameless
  · have hentries : (parse label source options).map.entries =
        Entry.mapMarksAll (Span.toRange label)
          (readFile options.counting.meter source options.maxDepth).1.entries := rfl
    rw [hentries, Entry.mapMarksAll_eq]
    refine .inl ⟨_, List.mem_map_of_mem he, i, j, ?_, hik, hkj⟩
    rw [Entry.range_mapMarks, hrange]
    rfl
  · obtain rfl : x = c := Option.some.inj (hx.symm.trans hk)
    exact .inr (hbetween.imp_right .inl)
  · exact .inr (.inr (.inr hnameless))

/-- Behind an entry, the mark of an override that marks no key. -/
theorem parse_covers_mark :
    let source := deliveries "a;&".toList
    (parse "" source {}).diagnostics = [] ∧
      ((∃ e ∈ (parse "" source {}).map.entries, ∃ i j,
          e.range = rangeBetween "" .bytes (delivered source) i j ∧ i ≤ 2 ∧ 2 < j) ∨
        isBlank '&' = true ∨ '&' = ';' ∨
        ∃ i j, i ≤ 2 ∧ 2 < j ∧ Nameless ((delivered source).extract i j)) := by
  have hclean : (parse "" (deliveries "a;&".toList) {}).diagnostics = [] := by decide +kernel
  exact ⟨hclean, parse_covers "" _ {} hclean 2 '&' rfl⟩

/-- The mark alone is dropped: it is neither reported nor part of a node. -/
theorem parse_drops_mark :
    let source := deliveries "&".toList
    (parse "" source {}).diagnostics = [] ∧
      ¬∀ (k : Nat) (c : Char), (delivered source)[k]? = some c →
        (∃ e ∈ (parse "" source {}).map.entries, ∃ i j,
          e.range = rangeBetween "" .bytes (delivered source) i j ∧ i ≤ k ∧ k < j) ∨
        isBlank c = true ∨ c = ';' := by
  intro source
  refine ⟨by decide +kernel, fun hcovers => ?_⟩
  have hentries : (parse "" source {}).map.entries = [] :=
    List.isEmpty_iff.mp (by decide +kernel)
  rcases hcovers 0 '&' rfl with ⟨e, he, -⟩ | hblank | hsemicolon
  · rw [hentries] at he
    cases he
  · exact absurd hblank (by decide)
  · exact absurd hsemicolon (by decide)

end Diagram
