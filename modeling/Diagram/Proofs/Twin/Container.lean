import Diagram.Proofs.Twin.Key

/-!
Maps, sequences and values in two runs side by side. The first run reports a container that is open
at the end of its text. On the level of the file, it may leave a comment there that goes on behind
the new line.
-/
namespace Diagram.Grammar

variable {π : Type} {K : Pairing π} {p : List Char}

section

variable {ρ σ : Type} (f : ρ → σ)

/-! ## Remarks -/

/-- The same remark with other marks. -/
def Remark.mapMarks : Remark ρ → Remark σ
  | .comment c => .comment (c.mapMarks f)
  | .blockComment c => .blockComment (c.mapMarks f)
  | .substitution s => .substitution (s.mapMarks f)

/-- The same start of a node with other marks. -/
def Start.mapMarks : Start ρ → Start σ
  | .remark r => .remark (r.map (Remark.mapMarks f))
  | .node => .node

end

/-- A point is all that is left of the common text. -/
def Dotted (K : Pairing π) (s : State Nat) : Prop :=
  ∃ q, s.At K.first q [] ∧ K.first.text.drop q.length = ['.']

/-- How the start of a node goes astray: it may be the last comment, or a point at the end of the
text. -/
def StartStrays (K : Pairing π) (start : Start (Span Nat)) (s : State Nat) : Prop :=
  (∃ c, start = .remark (some (.comment c)) ∧ CommentGoesOn K s) ∨ start = .node ∧ Dotted K s

theorem startNode_alike {c : Char} (hc : isBlank c = false) (p : List Char) :
    Alike K (Twin K (c :: p) []) (startNode c) (startNode c) (StartStrays K)
      (Meets K (Start.mapMarks (Span.map K.place))) :=
  .putBack (ne_newline_of_visible hc) (.done rfl)

theorem nodeStart_alike {c : Char} (hc : isBlank c = false) (p : List Char) :
    Alike K (Twin K (c :: p) []) (nodeStart c) (nodeStart c) (StartStrays K)
      (Meets K (Start.mapMarks (Span.map K.place))) := by
  refine .ite Iff.rfl ?_ fun _ => .ite Iff.rfl ?_ fun _ => .ite Iff.rfl ?_ fun _ =>
    startNode_alike hc p
  · rintro rfl
    refine .callStray (comment_alike p) (fun htail c => ?_) fun c q => .done rfl
    exact .astray_pure htail fun s hs => .inl ⟨c, rfl, hs⟩
  · rintro rfl
    refine .bounded fun hle => .acceptExactly (by decide) ?_ (startNode_alike hc p)
      fun htail hfar => ?_
    · exact .call (blockComment_alike p) fun _ _ => .done rfl
    · simp at hle hfar
      omega
  · rintro rfl
    refine .bounded fun hle => .known_of_consumed fun hknown => .acceptExactly (by decide) ?_
      (startNode_alike hc p) fun htail hfar => ?_
    · refine .call (spreadSubstitution_alike p) fun s q => .done ?_
      cases s <;> rfl
    · refine .putBack (by decide) (.astray_pure htail fun s hs => .inr ⟨rfl, p, hs, ?_⟩)
      simp at hle hfar
      obtain ⟨hlt, hpoint⟩ := List.getElem?_eq_some_iff.mp hknown
      rw [List.drop_eq_getElem_cons hlt, hpoint, List.drop_eq_nil_of_le (by omega)]

/-! ## Entries of a map -/

/-- The entries of the second run, of which some have been gathered before the common text. -/
def mapEntries (K : Pairing π) (before : List (Entry (Span π)))
    (entries : List (Entry (Span Nat))) : List (Entry (Span π)) :=
  entries.map (Entry.mapMarks (Span.map K.place)) ++ before

theorem entries_plain (K : Pairing π) (before : List (Entry (Span π))) :
    (Rendering.plain K.place).entries K.place before = mapEntries K before :=
  funext (Rendering.plain_entries K.place before)

/-- How an entry goes astray: it is the last comment, or it leaves text behind. -/
def EntryStrays (K : Pairing π) (entry : Option (Entry (Span Nat))) (s : State Nat) : Prop :=
  (∃ c, entry = some (.comment c) ∧ CommentGoesOn K s) ∨
    (∀ b, entry ≠ some (.blockComment b)) ∧ LeavesText K '}' s

theorem Stranded.leavesText {s : State Nat} (h : Stranded K s) {closing : Char}
    (hdash : '-' ≠ closing) (hstar : '*' ≠ closing) : LeavesText K closing s := by
  obtain ⟨q, c, hs, hrest, hc⟩ := h
  refine ⟨q, hs, c, ?_, ?_⟩
  · rw [← List.head?_drop, hrest]
    rfl
  · rcases hc with rfl | rfl
    · exact ⟨by decide, by decide, hdash, by decide⟩
    · exact ⟨by decide, by decide, hstar, by decide⟩

section

variable {φ : Rendering π} {value₁ : Grammar Nat (Option (Value (Span Nat)))}
  {value₂ : Grammar π (Option (Value (Span π)))}

theorem entry_alike (hgroup : K.first.inGroup = false) (hvalue : ValueTwins φ K value₁ value₂)
    {c : Char} (hc : isBlank c = false) (p : List Char) :
    Alike K (Twin K (c :: p) []) (entry value₁ c) (entry value₂ c) (EntryStrays K)
      (Notes K (Option.map (φ.entry K.place)) fun e => φ.entriesNotes e.toList) := by
  refine .callStray (nodeStart_alike hc p) (fun htail start => ?_) fun start q => ?_
  · rintro s (⟨comment, rfl, hs⟩ | ⟨rfl, q, hs, hrest⟩)
    · exact .inr ⟨htail, .inl ⟨comment, rfl, hs⟩⟩
    · have hpoint : K.first.text[q.length]? = some '.' := by
        rw [← List.head?_drop, hrest]
        rfl
      have hkey : (key value₁ s).1 = none ∧ (key value₁ s).2.At K.first q [] :=
        key_nameless (by decide) hpoint value₁ s hs
      obtain ⟨hnone, hs'⟩ := hkey
      have htext : isBlank '.' = false ∧ '.' ≠ ';' ∧ '.' ≠ '}' ∧ '.' ≠ '#' := by decide
      refine .inr ⟨htail, .inr ⟨fun b hb => ?_, q, hs', '.', hpoint, htext⟩⟩
      have hnode : (key value₁ s).1.map Entry.key = some (.blockComment b) := hb
      rw [hnone] at hnode
      cases hnode
  · cases start with
    | remark r =>
      match r with
      | none => exact .doneBare rfl rfl
      | some (.comment _) | some (.blockComment _) | some (.substitution _) =>
        exact .doneBare rfl rfl
    | node =>
      refine .callNotesStray (key_alike hgroup hvalue q) (fun htail key => ?_) fun key q => ?_
      · refine .astray_pure htail fun s hs =>
          .inr ⟨fun b hb => ?_, hs.leavesText (by decide) (by decide)⟩
        cases key <;> cases hb
      · cases key with
        | none => exact .doneNotes rfl rfl
        | some k => exact .doneNotes rfl (List.append_nil _).symm

/-- The first run has come to the end of its text behind a comment, and behind that is a `#`. -/
def MapStrays (K : Pairing π) (next : Next (List (Entry (Span Nat)))) (s : State Nat) : Prop :=
  (∃ c entries, next = .again (.comment c :: entries)) ∧ CommentGoesOn K s

/-- A comment that is left in a map is left in a map that is open. -/
theorem mapStep_astray (htail : K.tail ≠ []) (start : Nat) (entries : List (Entry (Span Nat))) :
    Ensures K.Spent (mapStep value₁ (some start) entries) (K.Astray (Stops Never)) :=
  .spent fun _ hblank => .readVisibleBlank hblank fun _ _ => .astray_reportToReach htail

variable [DecidableEq π] (before : List (Entry (Span π)))

/-- The second run has noticed what is in the entries gathered, and then in one more. -/
theorem entryLine_notes (hgroup : K.first.inGroup = false) (hvalue : ValueTwins φ K value₁ value₂)
    (entries : List (Entry (Span Nat))) {c : Char} (hc : isBlank c = false) (p : List Char) :
    Alike (K.noting (φ.entriesNotes entries)) (Twin (K.noting (φ.entriesNotes entries)) (c :: p) [])
      (entryLine value₁ entries c) (entryLine value₂ (φ.entries K.place before entries) c)
      (MapStrays K)
      (Notes K (Next.map (φ.entries K.place before)) fun next => φ.entriesNotes next.gathered) := by
  have hrest : ∀ (e : Option (Entry (Span Nat))) q,
      Alike (K.noting (φ.entriesNotes (e.toList ++ entries)))
        (Twin (K.noting (φ.entriesNotes (e.toList ++ entries))) q [])
        (trailingText (e.map leadingName) '}' .textBeforeKey >>= fun _ =>
          pure (.again (e.toList ++ entries)))
        (trailingText ((e.map (φ.entry K.place)).map leadingName) '}' .textBeforeKey >>= fun _ =>
          pure (.again ((e.map (φ.entry K.place)).toList ++ φ.entries K.place before entries)))
        (MapStrays K)
        (Notes K (Next.map (φ.entries K.place before))
          fun next => φ.entriesNotes next.gathered) := by
    intro e q
    have hname : (e.map (φ.entry K.place)).map leadingName = e.map leadingName := by
      cases e with
      | none => rfl
      | some e => exact congrArg some (φ.leadingName_entry K.place e)
    rw [hname]
    refine .call (trailingText_alike _ _ _ q) fun _ _ => .doneNotes ?_ rfl
    cases e <;> rfl
  refine .callNotesStray (entry_alike (K := K.noting _) hgroup (hvalue.noting _) hc p)
    (fun htail e => ?_) fun e q => ?_
  · rintro s (⟨comment, rfl, hhash, hspent⟩ | ⟨hblock, htext⟩)
    · have h := trailingText_spent (K := K) (some "comment") '}' .textBeforeKey s hspent
      exact .inr ⟨htail, ⟨comment, entries, rfl⟩, hhash, h⟩
    · have h : ∀ e : Option (Entry (Span Nat)), Ensures (LeavesText K '}')
          (trailingText (e.map leadingName) '}' .textBeforeKey >>= fun _ =>
            pure (.again (e.toList ++ entries))) (K.Astray (MapStrays K)) := fun e =>
        .astray (trailingText_astray htail _ '}' _) fun _ _ _ h => h.elim
      -- a block comment is the one entry that no text may trail, and it does not stray
      match e, hblock with
      | some (.blockComment b), hblock => exact absurd rfl (hblock b)
      | none, _ => exact h none s htext
      | some (.comment c), _ => exact h (some (.comment c)) s htext
      | some (.substitution r), _ => exact h (some (.substitution r)) s htext
      | some (.key k), _ => exact h (some (.key k)) s htext
  · rw [φ.noting_entries]
    match e with
    | some (.blockComment b) => exact .doneNotes rfl rfl
    | none => exact hrest none q
    | some (.comment c) => exact hrest (some (.comment c)) q
    | some (.substitution s) => exact hrest (some (.substitution s)) q
    | some (.key k) => exact hrest (some (.key k)) q

theorem mapStepFrom_notes (hgroup : K.first.inGroup = false)
    (hvalue : ValueTwins φ K value₁ value₂) (opened : Option Nat)
    (entries : List (Entry (Span Nat))) {c : Char} (hc : isBlank c = false) (p : List Char) :
    Alike (K.noting (φ.entriesNotes entries)) (Twin (K.noting (φ.entriesNotes entries)) (c :: p) [])
      (mapStepFrom value₁ opened entries c)
      (mapStepFrom value₂ (opened.map K.place) (φ.entries K.place before entries) c) (MapStrays K)
      (Notes K (Next.map (φ.entries K.place before)) fun next => φ.entriesNotes next.gathered) := by
  refine .ite Iff.rfl (fun _ => .doneNotes rfl rfl) fun _ => .ite Iff.rfl ?_ fun _ =>
    entryLine_notes before hgroup hvalue entries hc p
  rintro rfl
  cases opened with
  | some start => exact .doneNotes rfl rfl
  | none =>
    simp only [Option.map_none, Option.isSome_none, reportStrayMapEnd, bind_assoc]
    exact .placeOf (by decide) (.reportToHere fun _ => .doneNotes rfl rfl)

/-- A map that is open at the end of the text is reported, unless the file ends there. -/
theorem mapStep_notes (hgroup : K.first.inGroup = false) (hvalue : ValueTwins φ K value₁ value₂)
    {opened : Option Nat} (hopened : K.tail ≠ [] → opened.isSome = true)
    (entries : List (Entry (Span Nat))) (p : List Char) :
    Alike (K.noting (φ.entriesNotes entries)) (Twin (K.noting (φ.entriesNotes entries)) p [])
      (mapStep value₁ opened entries)
      (mapStep value₂ (opened.map K.place) (φ.entries K.place before entries)) (MapStrays K)
      (Notes K (Next.map (φ.entries K.place before)) fun next => φ.entriesNotes next.gathered) := by
  refine .readVisible (fun _ => ?_) (fun htail _ => ?_) fun b c hc =>
    mapStepFrom_notes before hgroup hvalue opened entries hc (b ++ p)
  · cases opened with
    | some start => exact .reportToReach fun _ => .doneNotes rfl rfl
    | none => exact .doneNotes rfl rfl
  · have hsome := hopened htail
    cases opened with
    | some start => exact .astray_reportToReach htail
    | none => cases hsome

/-- **Maps**: in a map that is entered, both runs read the same entries up to their form. -/
theorem enteredMap_alike (hgroup : K.first.inGroup = false)
    (hvalue : ValueTwins φ K.deeper value₁ value₂) (start : Nat) (p : List Char) :
    Alike K (Twin K p [])
      (nested (repeating (mapStep value₁ (some start)) []) >>= fun entries =>
        here >>= fun stop => pure ⟨⟨start, stop⟩, entries.reverse⟩)
      (nested (repeating (mapStep value₂ (some (K.place start))) []) >>= fun entries =>
        here >>= fun stop => pure ⟨⟨K.place start, stop⟩, entries.reverse⟩)
      Never (Notes K (φ.enteredMap K.place) φ.enteredMapNotes) := by
  have hempty : EntriesWithin K.deeper.first p.length [] p.length := Nat.le_refl _
  have hentries : Alike K.deeper (Twin K.deeper p []) (repeating (mapStep value₁ (some start)) [])
      (repeating (mapStep value₂ (some (K.place start))) []) Never
      (Notes K.deeper (φ.entries K.place []) φ.entriesNotes) := by
    refine repeating_notes (K := K.deeper) (f := φ.entries K.place []) (N := φ.entriesNotes) hempty
      (fun _ _ h => mapStep_reads (F := K.deeper.first) hgroup hvalue.reads _ h)
      (fun entries q _ =>
        mapStep_notes [] (K := K.deeper) hgroup hvalue (fun _ => rfl) entries q) ?_ ?_
    · rintro entries s ⟨⟨_, _, h⟩, -⟩
      cases h
    · rintro htail entries s ⟨-, -, hspent⟩
      exact mapStep_astray htail _ entries s hspent
  refine .nestedNotes hentries (fun _ _ _ h => False.elim h) fun entries q =>
    .here (.doneNotes ?_ ?_)
  · simp only [Rendering.entries, List.append_nil, Rendering.enteredMap, List.map_reverse]
    rfl
  · rw [Rendering.enteredMapNotes, List.reverse_reverse]

/-- The map of a whole file, where nothing comes behind the common text. -/
theorem fileMap_notes (htail : K.tail = []) (hgroup : K.first.inGroup = false)
    (hvalue : ValueTwins φ K value₁ value₂) (p : List Char) :
    Alike K (Twin K p []) (fileMap value₁) (fileMap value₂) Never
      (Notes K (φ.enteredMap K.place) φ.enteredMapNotes) := by
  have hempty : EntriesWithin K.first p.length [] p.length := Nat.le_refl _
  have hentries : Alike K (Twin K p []) (repeating (mapStep value₁ none) [])
      (repeating (mapStep value₂ none) []) Never
      (Notes K (φ.entries K.place []) φ.entriesNotes) := by
    refine repeating_notes_never (f := φ.entries K.place []) (N := φ.entriesNotes) hempty
      (fun _ _ h => mapStep_reads hgroup hvalue.reads none h) fun entries q _ => ?_
    exact .of_tail htail (mapStep_notes [] hgroup hvalue (fun h => absurd htail h) entries q)
  refine .outsideGroup hgroup
    (.here (.callNotes hentries fun entries q => .here (.doneNotes ?_ ?_)))
  · simp only [Rendering.entries, List.append_nil, Rendering.enteredMap, List.map_reverse]
    rfl
  · rw [Rendering.enteredMapNotes, List.reverse_reverse]

end

/-! ## Items of a sequence -/

/-- A point at the end of the text was the first character of an item, which may have been read. -/
def BehindDot (K : Pairing π) (s : State Nat) : Prop :=
  ∃ p q, K.first.text.drop p = ['.'] ∧ p ≤ q.length ∧ s.At K.first q []

/-- How an item goes astray: it is the last comment, or a point at the end of the text. -/
def ItemStrays (K : Pairing π) (item : Option (Item (Span Nat))) (s : State Nat) : Prop :=
  (∃ c, item = some (.comment c) ∧ CommentGoesOn K s) ∨
    (∀ b, item ≠ some (.blockComment b)) ∧ BehindDot K s

/-- Nothing visible is left of the text in a sequence that is still open. -/
def SequenceStrays (K : Pairing π) (next : Next (List (Item (Span Nat)))) (s : State Nat) : Prop :=
  (∃ items, next = .again items) ∧ K.Spent s

section

variable {φ : Rendering π} {value₁ : Grammar Nat (Option (Value (Span Nat)))}
  {value₂ : Grammar π (Option (Value (Span π)))}

theorem item_alike (hvalue : ValueTwins φ K value₁ value₂) {c : Char} (hc : isBlank c = false)
    (p : List Char) :
    Alike K (Twin K (c :: p) []) (item value₁ c) (item value₂ c) (ItemStrays K)
      (Notes K (Option.map (φ.item K.place)) fun x => φ.itemsNotes x.toList) := by
  refine .callStray (nodeStart_alike hc p) (fun htail start => ?_) fun start q => ?_
  · rintro s (⟨comment, rfl, hs⟩ | ⟨rfl, q, hs, hrest⟩)
    · exact .inr ⟨htail, .inl ⟨comment, rfl, hs⟩⟩
    · refine Ensures.call (hvalue.reads q) (fun v q' hq' _ => ?_) s hs
      cases v with
      | some v =>
        refine .astray_pure htail fun s hs => .inr ⟨fun b hb => ?_, q.length, q', hrest, hq', hs⟩
        cases hb
      | none =>
        refine .here (.read ?_ fun _ => ?_)
        · exact .astray_reportToHere htail
        · exact .astray_reportToHere htail
  · cases start with
    | remark r =>
      match r with
      | none => exact .doneBare rfl rfl
      | some (.comment _) | some (.blockComment _) | some (.substitution _) =>
        exact .doneBare rfl rfl
    | node =>
      refine .callNotes (hvalue.value_alike q) fun v q => ?_
      cases v with
      | some v => exact .doneNotes rfl (List.append_nil _).symm
      | none =>
        refine .here (.read (fun _ => .reportToHere fun _ => .doneNotes rfl rfl) (fun htail => ?_)
          fun _ => .reportToHere fun _ => .doneNotes rfl rfl)
        exact .astray_reportToHere htail

/-- Behind a point that ends the common text there is no text that trails. -/
theorem trailingText_behindDot (htail : K.tail ≠ []) (items : List (Item (Span Nat)))
    (x : Option (Item (Span Nat))) :
    Ensures (BehindDot K)
      (trailingText (x.map Item.typeName) ']' .textBeforeItem >>= fun _ =>
        pure (.again (x.toList ++ items)))
      (K.Astray (SequenceStrays K)) := by
  rintro s ⟨i, q, hdot, hi, hs⟩
  refine Ensures.call (trailingText_reads _ ']' _ q) (fun _ q' hq' hnot => ?_) s hs
  refine .astray_pure htail fun s' hs' => ⟨⟨_, rfl⟩, q', hs', ?_⟩
  -- a run that stood in front of the point would have taken it for text
  have hlt : i < q'.length := by
    rcases Nat.lt_or_ge i q'.length with hlt | hge
    · exact hlt
    · obtain rfl : i = q'.length := by omega
      refine absurd ⟨'.', ?_, by decide, by decide, by decide, by decide⟩ hnot
      rw [← List.head?_drop, hdot]
      rfl
  have hend : K.first.text.drop q'.length = [] := by
    have hlength := congrArg List.length hdot
    simp at hlength
    exact List.drop_eq_nil_of_le (by omega)
  simp [hend]

variable [DecidableEq π]

/-- The second run has noticed what is in the items gathered, and then in one more. -/
theorem itemLine_notes (hvalue : ValueTwins φ K value₁ value₂) (items : List (Item (Span Nat)))
    {c : Char} (hc : isBlank c = false) (p : List Char) :
    Alike (K.noting (φ.itemsNotes items)) (Twin (K.noting (φ.itemsNotes items)) (c :: p) [])
      (itemLine value₁ items c) (itemLine value₂ (items.map (φ.item K.place)) c) (SequenceStrays K)
      (Notes K (Next.map (List.map (φ.item K.place))) fun next => φ.itemsNotes next.gathered) := by
  have hrest : ∀ (x : Option (Item (Span Nat))) q,
      Alike (K.noting (φ.itemsNotes (x.toList ++ items)))
        (Twin (K.noting (φ.itemsNotes (x.toList ++ items))) q [])
        (trailingText (x.map Item.typeName) ']' .textBeforeItem >>= fun _ =>
          pure (.again (x.toList ++ items)))
        (trailingText ((x.map (φ.item K.place)).map Item.typeName) ']' .textBeforeItem >>= fun _ =>
          pure (.again ((x.map (φ.item K.place)).toList ++ items.map (φ.item K.place))))
        (SequenceStrays K)
        (Notes K (Next.map (List.map (φ.item K.place)))
          fun next => φ.itemsNotes next.gathered) := by
    intro x q
    have hname : (x.map (φ.item K.place)).map Item.typeName = x.map Item.typeName := by
      cases x with
      | none => rfl
      | some x => exact congrArg some (φ.typeName_item K.place x)
    rw [hname]
    refine .call (trailingText_alike _ _ _ q) fun _ _ => .doneNotes ?_ rfl
    cases x <;> rfl
  refine .callNotesStray (item_alike (K := K.noting _) (hvalue.noting _) hc p) (fun htail x => ?_)
    fun x q => ?_
  · rintro s (⟨comment, rfl, -, hspent⟩ | ⟨hblock, hdot⟩)
    · have h := trailingText_spent (K := K) (some "comment") ']' .textBeforeItem s hspent
      exact .inr ⟨htail, ⟨_, rfl⟩, h⟩
    · have h := fun x => trailingText_behindDot (K := K) htail items x
      -- a block comment is the one item that no text may trail, and it does not stray
      match x, hblock with
      | some (.blockComment b), hblock => exact absurd rfl (hblock b)
      | none, _ => exact h none s hdot
      | some (.comment c), _ => exact h (some (.comment c)) s hdot
      | some (.substitution r), _ => exact h (some (.substitution r)) s hdot
      | some (.value v), _ => exact h (some (.value v)) s hdot
  · rw [φ.noting_items]
    match x with
    | some (.blockComment b) => exact .doneNotes rfl rfl
    | none => exact hrest none q
    | some (.comment c) => exact hrest (some (.comment c)) q
    | some (.substitution r) => exact hrest (some (.substitution r)) q
    | some (.value v) => exact hrest (some (.value v)) q

theorem sequenceStep_notes (hvalue : ValueTwins φ K value₁ value₂) (start : Nat)
    (items : List (Item (Span Nat))) (p : List Char) :
    Alike (K.noting (φ.itemsNotes items)) (Twin (K.noting (φ.itemsNotes items)) p [])
      (sequenceStep value₁ start items)
      (sequenceStep value₂ (K.place start) (items.map (φ.item K.place))) (SequenceStrays K)
      (Notes K (Next.map (List.map (φ.item K.place))) fun next => φ.itemsNotes next.gathered) := by
  refine .readVisible (fun _ => .reportToReach fun _ => .doneNotes rfl rfl) (fun htail _ => ?_)
    fun b c hc => .ite Iff.rfl (fun _ => .doneNotes rfl rfl) fun _ =>
    .ite Iff.rfl (fun _ => .doneNotes rfl rfl) fun _ => itemLine_notes hvalue items hc (b ++ p)
  exact .astray_reportToReach htail

/-- **Sequences**: in a sequence that is entered, both runs read the same items up to their form. -/
theorem enteredSequence_alike (hvalue : ValueTwins φ K.deeper value₁ value₂) (start : Nat)
    (p : List Char) :
    Alike K (Twin K p [])
      (nested (repeating (sequenceStep value₁ start) []) >>= fun items =>
        here >>= fun stop => pure ⟨⟨start, stop⟩, items.reverse⟩)
      (nested (repeating (sequenceStep value₂ (K.place start)) []) >>= fun items =>
        here >>= fun stop => pure ⟨⟨K.place start, stop⟩, items.reverse⟩)
      Never (Notes K (φ.enteredSequence K.place) φ.enteredSequenceNotes) := by
  have hempty : ItemsWithin K.deeper.first p.length [] p.length := Nat.le_refl _
  have hitems : Alike K.deeper (Twin K.deeper p []) (repeating (sequenceStep value₁ start) [])
      (repeating (sequenceStep value₂ (K.place start)) []) Never
      (Notes K.deeper (List.map (φ.item K.place)) φ.itemsNotes) := by
    refine repeating_notes (K := K.deeper) (f := List.map (φ.item K.place))
      (N := φ.itemsNotes) hempty
      (fun _ _ h => sequenceStep_reads (F := K.deeper.first) hvalue.reads start h)
      (fun items q _ => sequenceStep_notes (K := K.deeper) hvalue start items q) ?_ ?_
    · rintro items s ⟨⟨_, h⟩, -⟩
      cases h
    · rintro htail items s ⟨-, hspent⟩
      refine Ensures.spent (fun _ hblank => .readVisibleBlank hblank fun _ _ => ?_) s hspent
      exact .astray_reportToReach htail
  refine .nestedNotes hitems (fun _ _ _ h => False.elim h) fun items q => .here (.doneNotes ?_ ?_)
  · simp only [Rendering.enteredSequence, List.map_reverse]
    rfl
  · rw [Rendering.enteredSequenceNotes, List.reverse_reverse]

end

/-! ## Values -/

/-- Behind a brace, there is a map. -/
theorem valueWithin_opens {room : Nat} (hgroup : K.first.inGroup = false)
    (hopen : K.first.OnLine p.length '{') :
    Ensures (State.At K.first p []) (valueWithin (room + 1)) fun r _ => r.isSome = true := by
  refine .outsideGroup hgroup (.peekOnLineFound hopen fun b => .accept ?_)
  exact .bind (R := fun _ _ => True) (fun _ _ => trivial) fun _ => .pure fun _ _ => rfl

/-- Outside of all containers, the first run has room for as many as may be entered. -/
theorem ValueTwins.outermost {φ : Rendering π} {value₂ : Grammar π (Option (Value (Span π)))}
    (h : ValueTwins φ K (valueWithin (K.first.limit + 1)) value₂)
    (hgroup : K.first.inGroup = false) : ValueTwins φ K value value₂ := by
  refine ⟨fun problems p s t hs => ?_, value_reads hgroup, fun p hopen s hs => ?_, h.dropped⟩
  · have hboth := h.alike problems p s t hs
    have hlimit : s.limit = K.first.limit := hs.first.limit
    rw [← hlimit] at hboth
    exact hboth
  · have hopens := h.opens p hopen s hs
    rw [← hs.limit] at hopens
    exact hopens

/-- Where both runs have room for as many containers as may be entered, they read values. -/
theorem ValueTwins.value [DecidableEq π] {φ : Rendering π}
    (h : ValueTwins φ K (valueWithin (K.first.limit + 1)) (valueWithin (K.second.limit + 1)))
    (hgroup : K.first.inGroup = false) : ValueTwins φ K value value := by
  obtain ⟨halike, hreads, hopens, hdropped⟩ := h.outermost hgroup
  refine ⟨fun problems p s t hs => ?_, hreads, hopens, hdropped⟩
  have hboth := halike problems p s t hs
  have hlimit : t.limit = K.second.limit := hs.second.limit
  rw [← hlimit] at hboth
  exact hboth

variable [DecidableEq π]

/-- Containers are read alike up to their form, with the given grammars for the values inside. -/
structure ContainerTwins (φ : Rendering π) (K : Pairing π)
    (inner₁ : Grammar Nat (Option (Value (Span Nat))))
    (inner₂ : Grammar π (Option (Value (Span π)))) : Prop where
  sequence : ∀ p, Alike K (Twin K ('[' :: p) []) (sequence inner₁) (sequence inner₂) Never
    (Notes K φ.sequence φ.sequenceNotes)
  map : ∀ p, Alike K (Twin K ('{' :: p) []) (map inner₁) (map inner₂) Never
    (Notes K φ.map φ.mapNotes)

section

variable {φ : Rendering π} {inner₁ : Grammar Nat (Option (Value (Span Nat)))}
  {inner₂ : Grammar π (Option (Value (Span π)))}

theorem valueFrom_alike (hcontainers : ContainerTwins φ K inner₁ inner₂) {c : Char}
    (hc : isBlank c = false) (p : List Char) :
    Alike K (Twin K (c :: p) []) (valueFrom inner₁ c) (valueFrom inner₂ c) Never
      (Notes K (Option.map (φ.value K.place)) φ.valueNotes?) := by
  refine .ite Iff.rfl ?_ fun _ => .ite Iff.rfl ?_ fun _ => .putBack (ne_newline_of_visible hc) ?_
  · rintro rfl
    exact .callNotes (hcontainers.sequence p) fun _ _ => .doneNotes rfl rfl
  · rintro rfl
    exact .callNotes (hcontainers.map p) fun _ _ => .doneNotes rfl rfl
  · refine .call (valueText_alike p) fun t _ => ?_
    cases t with
    | none => exact .doneBare rfl rfl
    | some t =>
      refine .doneBare ?_ rfl
      simp only [Option.map_some, scalarOf_mapMarks, Rendering.value]

theorem valueWithin_succ_alike {m n : Nat} (hgroup : K.first.inGroup = false)
    (hcontainers : ContainerTwins φ K (valueWithin m) (valueWithin n)) (p : List Char) :
    Alike K (Twin K p []) (valueWithin (m + 1)) (valueWithin (n + 1)) Never
      (Notes K (Option.map (φ.value K.place)) φ.valueNotes?) := by
  refine .outsideGroup hgroup (.peekOnLine (.doneBare rfl rfl) fun b c hc => .accept ?_)
  rw [List.append_nil]
  exact valueFrom_alike hcontainers hc (b ++ p)

/-- If containers are read alike whatever the second run has noticed before, values are. -/
theorem valueWithin_succ_twins {m n : Nat} (hgroup : K.first.inGroup = false)
    (hm : K.first.limit ≤ K.first.depth + m)
    (hdropped : K.voids .valueWithoutKey ∨ ∀ v, φ.valueNotes? v = [])
    (hcontainers : ∀ problems,
      ContainerTwins φ (K.noting problems) (valueWithin m) (valueWithin n)) :
    ValueTwins φ K (valueWithin (m + 1)) (valueWithin (n + 1)) where
  alike problems := valueWithin_succ_alike (K := K.noting problems) hgroup (hcontainers problems)
  reads := valueWithin_reads m hgroup hm
  opens _ hopen := valueWithin_opens hgroup hopen
  dropped := hdropped

end

/-! ## With the same room -/

section

variable {value₁ : Grammar Nat (Option (Value (Span Nat)))}
  {value₂ : Grammar π (Option (Value (Span π)))} {before : List (Entry (Span π))}

theorem entryLine_alike (hgroup : K.first.inGroup = false)
    (hvalue : ValueTwins (.plain K.place) K value₁ value₂) (entries : List (Entry (Span Nat)))
    {c : Char} (hc : isBlank c = false) (p : List Char) :
    Alike K (Twin K (c :: p) []) (entryLine value₁ entries c)
      (entryLine value₂ (mapEntries K before entries) c) (MapStrays K)
      (Meets K (Next.map (mapEntries K before))) := by
  have h := entryLine_notes before hgroup hvalue entries hc p
  simp only [entries_plain, Rendering.plain_entriesNotes] at h
  exact h

theorem mapStepFrom_alike (hgroup : K.first.inGroup = false)
    (hvalue : ValueTwins (.plain K.place) K value₁ value₂) (opened : Option Nat)
    (entries : List (Entry (Span Nat))) {c : Char} (hc : isBlank c = false) (p : List Char) :
    Alike K (Twin K (c :: p) []) (mapStepFrom value₁ opened entries c)
      (mapStepFrom value₂ (opened.map K.place) (mapEntries K before entries) c) (MapStrays K)
      (Meets K (Next.map (mapEntries K before))) := by
  have h := mapStepFrom_notes before hgroup hvalue opened entries hc p
  simp only [entries_plain, Rendering.plain_entriesNotes] at h
  exact h

theorem mapStep_alike (hgroup : K.first.inGroup = false)
    (hvalue : ValueTwins (.plain K.place) K value₁ value₂) {opened : Option Nat}
    (hopened : K.tail ≠ [] → opened.isSome = true) (entries : List (Entry (Span Nat)))
    (p : List Char) :
    Alike K (Twin K p []) (mapStep value₁ opened entries)
      (mapStep value₂ (opened.map K.place) (mapEntries K before entries)) (MapStrays K)
      (Meets K (Next.map (mapEntries K before))) := by
  have h := mapStep_notes before hgroup hvalue hopened entries p
  simp only [entries_plain, Rendering.plain_entriesNotes] at h
  exact h

/-- The map of a whole file, where nothing comes behind the common text. -/
theorem fileMap_alike (htail : K.tail = []) (hgroup : K.first.inGroup = false)
    (hvalue : ValueTwins (.plain K.place) K value₁ value₂) (p : List Char) :
    Alike K (Twin K p []) (fileMap value₁) (fileMap value₂) Never
      (Meets K (Map.mapMarks (Span.map K.place))) := by
  have h := fileMap_notes htail hgroup hvalue p
  rw [Rendering.plain_enteredMap] at h
  exact h.bare fun m => Rendering.plain_entriesNotes _ _

/-- **Containers**: with the same room, both runs read the same sequences and maps. -/
theorem containerTwins (hgroup : K.first.inGroup = false) (hlimits : K.Limits)
    (hvalue : K.first.depth < K.first.limit →
      ValueTwins (.plain K.place) K.deeper value₁ value₂) :
    ContainerTwins (.plain K.place) K value₁ value₂ := by
  refine ⟨fun p => ?_, fun p => ?_⟩
  · refine .placeOf (by decide) (.atLimit hlimits (fun hvoid => ?_) fun deep hdeep =>
      .ite Iff.rfl (fun _ => ?_) fun hroom => ?_)
    · exact skipContainer_astray hvoid _ _ _ _
    · exact .call (skipContainer_alike _ _ _ _ _) fun _ q => .here (.done rfl)
    · have hdepth : K.first.depth < K.first.limit := by simpa [hdeep] using hroom
      have h := enteredSequence_alike (hvalue hdepth) p.length ('[' :: p)
      rw [Rendering.plain_enteredSequence] at h
      exact h.bare fun s => Rendering.plain_itemsNotes _ _
  · refine .outsideGroup hgroup (.placeOf (by decide) (.atLimit hlimits (fun hvoid => ?_)
      fun deep hdeep => .ite Iff.rfl (fun _ => ?_) fun hroom => ?_))
    · exact skipContainer_astray hvoid _ _ _ _
    · exact .call (skipContainer_alike _ _ _ _ _) fun _ q => .here (.done rfl)
    · have hdepth : K.first.depth < K.first.limit := by simpa [hdeep] using hroom
      have h := enteredMap_alike hgroup (hvalue hdepth) p.length ('{' :: p)
      rw [Rendering.plain_enteredMap] at h
      exact h.bare fun m => Rendering.plain_entriesNotes _ _

end

/-- **Values**: with room for all the containers that may be entered, both runs read the same
value. -/
theorem valueWithin_twins (m n : Nat) (hgroup : K.first.inGroup = false) (hlimits : K.Limits)
    (hm : K.first.limit ≤ K.first.depth + m) (hn : K.second.limit ≤ K.second.depth + n) :
    ValueTwins (.plain K.place) K (valueWithin (m + 1)) (valueWithin (n + 1)) := by
  have hdepth := K.depth
  have hle := hlimits.le
  induction m generalizing n K with
  | zero =>
    refine valueWithin_succ_twins hgroup hm (.inr (Rendering.plain_valueNotes? _))
      fun problems => ?_
    exact containerTwins (K := K.noting problems) hgroup ⟨hlimits.le, hlimits.eq_or_void⟩
      fun h => absurd h (Nat.not_lt_of_le hm)
  | succ m ih =>
    refine valueWithin_succ_twins hgroup hm (.inr (Rendering.plain_valueNotes? _))
      fun problems => ?_
    refine containerTwins (K := K.noting problems) hgroup
      ⟨hlimits.le, hlimits.eq_or_void⟩ fun h => ?_
    replace h : K.first.depth < K.first.limit := h
    obtain ⟨n, rfl⟩ : ∃ k, n = k + 1 := ⟨n - 1, by omega⟩
    refine ValueTwins.noting (K := K.deeper) (ih (K := K.deeper) n hgroup hlimits.deeper ?_ ?_
      K.deeper.depth hlimits.deeper.le) problems
    · simp only [Pairing.deeper, Frame.deeper]
      omega
    · simp only [Pairing.deeper, Frame.deeper]
      omega

theorem value_twins (hgroup : K.first.inGroup = false) (hlimits : K.Limits) :
    ValueTwins (.plain K.place) K value value :=
  (valueWithin_twins (K := K) K.first.limit K.second.limit hgroup hlimits (Nat.le_add_left _ _)
    (Nat.le_add_left _ _)).value hgroup

end Diagram.Grammar
