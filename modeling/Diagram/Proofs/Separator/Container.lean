import Diagram.Proofs.Separator.Key

/-!
Maps, sequences and values in front of a semicolon. The first run reports a container that is open
at the end of its text, so that only values of keys and the entries of a file come out apart.
-/
namespace Diagram.Grammar

variable {S : Seam} {value : Grammar Nat (Option (Value (Span Nat)))}

/-- Where the line is over, nothing visible is left for the first run. -/
theorem spent_of_rests {s : State Nat} (h : s.Rests S.first []) : S.pairing.Spent s := by
  obtain ⟨q, b, hb, hs⟩ := h
  exact spent_of_stands (fun x hx => (hb x (by simpa using hx)).1) hs

theorem nodeStart_abreast (hgroup : S.first.inGroup = false) {c : Char} (hc : isBlank c = false)
    (p : List Char) :
    Abreast S (S.Beside (c :: p) []) (nodeStart c)
      (Strays fun start s => (∃ c, start = .remark (some (.comment c))) ∧ S.pairing.Spent s) := by
  have hnode : Abreast S (S.Beside (c :: p) []) (startNode c)
      (Strays fun start s => (∃ c, start = .remark (some (.comment c))) ∧ S.pairing.Spent s) :=
    .putBack (ne_newline_of_visible hc) .done
  refine .ite ?_ fun _ => .ite ?_ fun _ => .ite ?_ fun _ => hnode
  · rintro rfl
    exact .callStray (comment_abreast p) (fun c _ => .pure fun _ _ hs => ⟨⟨c, rfl⟩, hs⟩)
      fun _ _ => .done
  · rintro rfl
    exact .acceptExactly (by decide) (.call (blockComment_abreast _) fun _ _ => .done) hnode
  · rintro rfl
    exact .acceptExactly (by decide) (.call (spreadSubstitution_abreast hgroup _) fun _ _ => .done)
      hnode

/-! ## Entries of a map -/

/-- How an entry comes out apart: it is a key, or the last comment. -/
def EntryApart (S : Seam) (a b : Option (Entry (Span Nat))) (s t : State Nat) : Prop :=
  (∃ k l, a = k.map .key ∧ b = l.map .key ∧
    (Landed S (Option.map (Key.mapMarks unplaced)) k l s t ∨ LeavesText S.pairing '}' s)) ∨
    (∃ c, a = some (.comment c)) ∧ S.pairing.Spent s

theorem entry_abreast (hgroup : S.first.inGroup = false) (hvalue : ValueAbreast S value) {c : Char}
    (hc : isBlank c = false) (p : List Char) :
    Abreast S (S.Beside (c :: p) []) (entry value c) (EntryApart S) := by
  refine .callStray (nodeStart_abreast hgroup hc p) (fun x y => ?_) fun start q => ?_
  · rintro s t ⟨⟨c, rfl⟩, hs⟩
    exact .apart (.inr ⟨⟨c, rfl⟩, hs⟩)
  · cases start with
    | remark r => exact .done
    | node =>
      exact .callStray (key_abreast hgroup hvalue q)
        (fun k l => .pure fun _ _ h => .inl ⟨k, l, rfl, rfl, h⟩) fun _ _ => .done

/-- How a step of a map comes out apart: the line is over behind an entry that is the same up to its
places, or behind the last comment. -/
def MapApart (S : Seam) (a b : Next (List (Entry (Span Nat)))) (s t : State Nat) : Prop :=
  (∃ x y, a = .again x ∧ b = .again y ∧ Landed S (List.map (Entry.mapMarks unplaced)) x y s t) ∨
    (∃ c x, a = .again (.comment c :: x)) ∧ S.pairing.Spent s

/-- Where the runs come apart, the first wants another entry, and nothing visible is left. -/
theorem MapApart.spent {a b : Next (List (Entry (Span Nat)))} {s t : State Nat}
    (h : MapApart S a b s t) : (∃ x, a = .again x) ∧ S.pairing.Spent s := by
  rcases h with ⟨x, y, rfl, -, -, hs, -⟩ | ⟨⟨c, x, rfl⟩, hs⟩
  · exact ⟨⟨x, rfl⟩, spent_of_rests hs⟩
  · exact ⟨⟨_, rfl⟩, hs⟩

/-- Where the line is over behind an entry, no text trails it. -/
theorem trailingText_landed {k l : Option (Key (Span Nat))} {x y : List (Entry (Span Nat))}
    (name name' : Option String)
    (hsame : x.map (Entry.mapMarks unplaced) = y.map (Entry.mapMarks unplaced)) :
    Apart S (Landed S (Option.map (Key.mapMarks unplaced)) k l)
      (trailingText name '}' .textBeforeKey >>= fun _ => pure (Next.again x))
      (trailingText name' '}' .textBeforeKey >>= fun _ => pure (Next.again y)) (MapApart S) := by
  have hidle : ∀ name (x : List (Entry (Span Nat))),
      Idles (trailingText name '}' .textBeforeKey >>= fun _ => pure (Next.again x))
        (· = Next.again x) :=
    fun _ _ => .bind (trailingText_idles _ _ _) fun _ _ => .done rfl
  exact .landed (hidle name x) (hidle name' y) fun _ _ _ _ _ hx hy hover =>
    .inl ⟨x, y, hx, hy, hsame, hover⟩

theorem entryLine_abreast (hgroup : S.first.inGroup = false) (hvalue : ValueAbreast S value)
    (entries : List (Entry (Span Nat))) {c : Char} (hc : isBlank c = false) (p : List Char) :
    Abreast S (S.Beside (c :: p) []) (entryLine value entries c) (MapApart S) := by
  have hrest : ∀ (e : Option (Entry (Span Nat))) q, Abreast S (S.Beside q [])
      (trailingText (e.map leadingName) '}' .textBeforeKey >>= fun _ =>
        pure (.again (e.toList ++ entries))) (MapApart S) :=
    fun e q => .call (trailingText_abreast _ _ _ q) fun _ _ => .done
  refine .callStray (entry_abreast hgroup hvalue hc p) (fun a b => ?_) fun e q => ?_
  · -- the runs come apart in the entry: text that a key leaves behind it is reported by the first
    have hleft : ∀ (name : Option String) (x : List (Entry (Span Nat))),
        Ensures (LeavesText S.pairing '}')
          (trailingText name '}' .textBeforeKey >>= fun _ => pure (Next.again x))
          (S.pairing.Astray Never) :=
      fun _ _ => .astray (trailingText_astray S.tail_ne_nil _ '}' _) fun _ _ _ h => h.elim
    rintro s t (⟨k, l, rfl, rfl, hlanded | htext⟩ | ⟨⟨c, rfl⟩, hs⟩)
    · have hsame := hlanded.1
      cases k with
      | none =>
        cases l with
        | none => exact trailingText_landed none none rfl s t hlanded
        | some l => cases hsame
      | some k =>
        cases l with
        | none => cases hsame
        | some l =>
          refine trailingText_landed (x := .key k :: entries) (y := .key l :: entries) _ _ ?_ s t
            hlanded
          have hkey : k.mapMarks unplaced = l.mapMarks unplaced := Option.some.inj hsame
          simp only [List.map_cons, Entry.mapMarks, hkey]
    · cases k with
      | none => exact .moot (hleft none entries) htext
      | some k => exact .moot (hleft (some (leadingName (.key k))) (.key k :: entries)) htext
    · have hspent := trailingText_spent (K := S.pairing) (some "comment") '}' .textBeforeKey s hs
      exact .apart (.inr ⟨⟨c, entries, rfl⟩, hspent⟩)
  · cases e with
    | none => exact hrest none q
    | some e =>
      cases e with
      | blockComment b => exact .done
      | comment c => exact hrest (some (.comment c)) q
      | substitution s => exact hrest (some (.substitution s)) q
      | key k => exact hrest (some (.key k)) q

/-- The first run has come to the end of its text, and the second has read the semicolon. -/
def MapEnds (S : Seam) (a b : Next (List (Entry (Span Nat)))) (s t : State Nat) : Prop :=
  ∃ x, a = .stop x ∧ b = .again x ∧ s.At S.first S.first.text.reverse [] ∧
    t.At S.second (';' :: S.first.text.reverse) [] ∧ s.problems = [] ∧ t.problems = []

theorem mapStep_abreast (hgroup : S.first.inGroup = false) (hvalue : ValueAbreast S value)
    (opened : Option Nat) (entries : List (Entry (Span Nat))) (p : List Char) :
    Abreast S (S.Beside p []) (mapStep value opened entries)
      fun a b s t => MapApart S a b s t ∨ opened = none ∧ MapEnds S a b s t := by
  refine .readVisible (fun _ => ?_) fun b c hc => .ite (fun _ => .done) fun _ => .ite ?_ fun _ =>
    (entryLine_abreast hgroup hvalue entries hc _).weaken fun _ _ _ _ h => .inl h
  · cases opened with
    | none =>
      intro s t ⟨hs, ht, hclean⟩
      exact .apart (.inr ⟨rfl, entries, rfl, rfl, hs, ht, hclean⟩)
    | some start =>
      exact .noticed (.astray_reportToReach S.tail_ne_nil)
  · rintro rfl
    refine .ite (fun _ => .done) fun _ => ?_
    simp only [reportStrayMapEnd, bind_assoc]
    exact .placeOf (by decide) .reportToHere

/-- **Maps**: a map that is entered does not come out apart. -/
theorem enteredMap_abreast (hgroup : S.first.inGroup = false) (hvalue : ValueAbreast S.deeper value)
    (start : Nat) (p : List Char) :
    Abreast S (S.Beside p []) (nested (repeating (mapStep value (some start)) []) >>= fun entries =>
      here >>= fun stop => pure (⟨⟨start, stop⟩, entries.reverse⟩ : Map (Span Nat))) Nowhere := by
  have hentries : Abreast S.deeper (S.deeper.Beside p [])
      (repeating (mapStep value (some start)) []) Nowhere := by
    refine repeating_abreast (I := EntriesWithin S.deeper.first p.length)
      (J := EntriesWithin S.deeper.second p.length) (Nat.le_refl _) (Nat.le_refl _)
      (fun _ _ h => mapStep_reads (F := S.deeper.first) hgroup hvalue.first_reads _ h)
      (fun _ _ h => mapStep_reads (F := S.deeper.second) (S.inGroup.trans hgroup)
        hvalue.second_reads _ h)
      (fun entries q _ _ => mapStep_abreast (S := S.deeper) hgroup hvalue (some start) entries q) ?_
    -- a map that is open at the end of the text is reported by the next step
    rintro a b s t (happart | ⟨hnone, -⟩)
    · obtain ⟨⟨x, rfl⟩, hs⟩ := happart.spent
      exact .moot (repeating_astray (mapStep_astray S.deeper.tail_ne_nil start x)) hs
    · cases hnone
  exact .nested hentries (fun _ _ => .nowhere) fun _ _ => .here .done

/-! ## Items of a sequence -/

/-- Where an item comes out apart, it is no block comment, and nothing visible is left behind it. -/
def ItemApart (S : Seam) (a : Option (Item (Span Nat))) (s : State Nat) : Prop :=
  (∀ b, a ≠ some (.blockComment b)) ∧ S.pairing.Spent s

theorem item_abreast (hgroup : S.first.inGroup = false) (hvalue : ValueAbreast S value) {c : Char}
    (hc : isBlank c = false) (p : List Char) :
    Abreast S (S.Beside (c :: p) []) (item value c) (Strays (ItemApart S)) := by
  refine .callStray (nodeStart_abreast hgroup hc p) (fun x y => ?_) fun start q => ?_
  · rintro s t ⟨⟨c, rfl⟩, hs⟩
    exact .apart ⟨nofun, hs⟩
  · cases start with
    | remark r => exact .done
    | node =>
      refine .callStray (hvalue.abreast q) (fun v w => ?_) fun v q => ?_
      · cases v with
        | none =>
          refine .moot (R := State.Rests S.first []) ?_ fun _ _ h => h.2.1
          rintro s ⟨i, b, -, hs⟩
          refine Ensures.here (.read ?_ fun _ => ?_) s hs.stands
          · exact .astray_reportToHere S.tail_ne_nil
          · exact .astray_reportToHere S.tail_ne_nil
        | some v =>
          exact fun s t h => .apart ⟨nofun, spent_of_rests h.2.1⟩
      · cases v with
        | none =>
          exact .here (.read (X := Never) (.astray_reportToHere S.tail_ne_nil)
            (fun _ _ _ _ h => h.elim) fun _ => .reportToHere)
        | some v => exact .done

theorem itemLine_abreast (hgroup : S.first.inGroup = false) (hvalue : ValueAbreast S value)
    (items : List (Item (Span Nat))) {c : Char} (hc : isBlank c = false) (p : List Char) :
    Abreast S (S.Beside (c :: p) []) (itemLine value items c)
      (Strays (SequenceStrays S.pairing)) := by
  have hrest : ∀ (x : Option (Item (Span Nat))) q, Abreast S (S.Beside q [])
      (trailingText (x.map Item.typeName) ']' .textBeforeItem >>= fun _ =>
        pure (.again (x.toList ++ items))) (Strays (SequenceStrays S.pairing)) :=
    fun x q => .call (trailingText_abreast _ _ _ q) fun _ _ => .done
  have hspent : ∀ (x : Option (Item (Span Nat))) (s : State Nat), S.pairing.Spent s →
      SequenceStrays S.pairing (.again (x.toList ++ items))
        (trailingText (x.map Item.typeName) ']' .textBeforeItem s).2 :=
    fun x s hs => ⟨⟨_, rfl⟩, trailingText_spent _ ']' .textBeforeItem s hs⟩
  refine .callStray (item_abreast hgroup hvalue hc p) (fun a b => ?_) fun x q => ?_
  · rintro s t ⟨hblock, hs⟩
    match a, hblock with
    | some (.blockComment b), hblock => exact absurd rfl (hblock b)
    | none, _ => exact .apart (hspent none s hs)
    | some (.comment c), _ => exact .apart (hspent (some (.comment c)) s hs)
    | some (.substitution r), _ => exact .apart (hspent (some (.substitution r)) s hs)
    | some (.value v), _ => exact .apart (hspent (some (.value v)) s hs)
  · match x with
    | some (.blockComment b) => exact .done
    | none => exact hrest none q
    | some (.comment c) => exact hrest (some (.comment c)) q
    | some (.substitution r) => exact hrest (some (.substitution r)) q
    | some (.value v) => exact hrest (some (.value v)) q

theorem sequenceStep_abreast (hgroup : S.first.inGroup = false) (hvalue : ValueAbreast S value)
    (start : Nat) (items : List (Item (Span Nat))) (p : List Char) :
    Abreast S (S.Beside p []) (sequenceStep value start items)
      (Strays (SequenceStrays S.pairing)) :=
  .readVisible (fun _ => .noticed (.astray_reportToReach S.tail_ne_nil)) fun _ _ hc =>
    .ite (fun _ => .done) fun _ => .ite (fun _ => .done) fun _ =>
      itemLine_abreast hgroup hvalue items hc _

/-- A sequence that is open where nothing visible is left is reported. -/
theorem sequenceStep_astray (start : Nat) (items : List (Item (Span Nat))) :
    Ensures S.pairing.Spent (sequenceStep value start items) (S.pairing.Astray (Stops Never)) :=
  .spent fun _ hblank => .readVisibleBlank hblank fun _ _ => .astray_reportToReach S.tail_ne_nil

/-- **Sequences**: a sequence that is entered does not come out apart. -/
theorem enteredSequence_abreast (hgroup : S.first.inGroup = false)
    (hvalue : ValueAbreast S.deeper value) (start : Nat) (p : List Char) :
    Abreast S (S.Beside p []) (nested (repeating (sequenceStep value start) []) >>= fun items =>
      here >>= fun stop => pure (⟨⟨start, stop⟩, items.reverse⟩ : Sequence (Span Nat)))
      Nowhere := by
  have hitems : Abreast S.deeper (S.deeper.Beside p []) (repeating (sequenceStep value start) [])
      Nowhere := by
    refine repeating_abreast (I := ItemsWithin S.deeper.first p.length)
      (J := ItemsWithin S.deeper.second p.length) (Nat.le_refl _) (Nat.le_refl _)
      (fun _ _ h => sequenceStep_reads (F := S.deeper.first) hvalue.first_reads _ h)
      (fun _ _ h => sequenceStep_reads (F := S.deeper.second) hvalue.second_reads _ h)
      (fun items q _ _ => sequenceStep_abreast (S := S.deeper) hgroup hvalue start items q) ?_
    rintro _ b s t ⟨⟨x, rfl⟩, hs⟩
    exact .moot (repeating_astray (sequenceStep_astray (S := S.deeper) start x)) hs
  exact .nested hitems (fun _ _ => .nowhere) fun _ _ => .here .done

/-! ## Values -/

/-- Containers come out the same, with the given grammar for the values inside. -/
structure ContainerAbreast (S : Seam) (inner : Grammar Nat (Option (Value (Span Nat)))) : Prop where
  sequence : ∀ p, Abreast S (S.Beside ('[' :: p) []) (sequence inner) Nowhere
  map : ∀ p, Abreast S (S.Beside ('{' :: p) []) (map inner) Nowhere

/-- **Containers**: both runs skip the same ones, and enter the same ones. -/
theorem containerAbreast (hgroup : S.first.inGroup = false)
    (hvalue : S.first.depth < S.first.limit → ValueAbreast S.deeper value) :
    ContainerAbreast S value := by
  refine ⟨fun p => ?_, fun p => ?_⟩
  · refine .placeOf (by decide) (.atLimit fun deep hdeep => .ite (fun _ => ?_) fun hroom => ?_)
    · exact Apart.noticed (skipContainer_astray trivial _ _ _ _)
    · exact enteredSequence_abreast hgroup (hvalue (by simpa [hdeep] using hroom)) _ _
  · refine .outsideGroup hgroup (.placeOf (by decide) (.atLimit fun deep hdeep =>
      .ite (fun _ => ?_) fun hroom => ?_))
    · exact Apart.noticed (skipContainer_astray trivial _ _ _ _)
    · exact enteredMap_abreast hgroup (hvalue (by simpa [hdeep] using hroom)) _ _

section

variable {inner : Grammar Nat (Option (Value (Span Nat)))}

theorem valueFrom_abreast (hgroup : S.first.inGroup = false) (hinner : ContainerAbreast S inner)
    {c : Char} (hc : isBlank c = false) (p : List Char) :
    Abreast S (S.Beside (c :: p) []) (valueFrom inner c) (Landed S id) := by
  refine .ite ?_ fun _ => .ite ?_ fun _ => .putBack (ne_newline_of_visible hc)
    (.callStray (valueText_abreast hgroup p) (fun x y => .pure ?_) fun _ _ => .done)
  · rintro rfl
    exact .call (hinner.sequence p) fun _ _ => .done
  · rintro rfl
    exact .call (hinner.map p) fun _ _ => .done
  · rintro s t ⟨hsame, hover⟩
    obtain rfl : x = y := hsame
    exact ⟨rfl, hover⟩

/-- There is no value in front of a semicolon. -/
theorem valueFrom_semicolon {F : Frame Nat} {p v : List Char} :
    Ahead F (';' :: p) [] v (valueFrom inner ';') (Arrives F (';' :: v) (· = none)) := by
  refine .no (by decide) (.no (by decide) (.putBack (by decide)
    (.call (text_semicolon (b := []) lineBlanks_nil) ?_)))
  rintro _ q rfl
  exact .done rfl

theorem valueWithin_succ_abreast {m : Nat} (hgroup : S.first.inGroup = false)
    (hinner : ContainerAbreast S (valueWithin m)) (p : List Char) :
    Abreast S (S.Beside p []) (valueWithin (m + 1)) (Landed S id) := by
  refine .outsideGroup hgroup (.peekOnLine .done (fun b hb => ?_) fun b c hc => .accept ?_)
  · refine .ahead (X := fun r s => r = none ∧ s.Rests S.first [])
      (fun s hs => ⟨rfl, rests_of_stands hb hs⟩) (.accept valueFrom_semicolon) lineBlanks_nil ?_
    rintro _ _ s t ⟨rfl, hs⟩ rfl ht
    exact ⟨rfl, hs, ht⟩
  · rw [List.append_nil]
    exact valueFrom_abreast hgroup hinner hc (b ++ p)

theorem valueWithin_succ {m : Nat} (hgroup : S.first.inGroup = false)
    (hm : S.first.limit ≤ S.first.depth + m) (hinner : ContainerAbreast S (valueWithin m)) :
    ValueAbreast S (valueWithin (m + 1)) where
  abreast := valueWithin_succ_abreast hgroup hinner
  first_reads := valueWithin_reads m hgroup hm
  second_reads := valueWithin_reads m (S.inGroup.trans hgroup) (by rwa [S.limit, S.depth])

end

/-- **Values**: with room for all the containers that may be entered, both runs read the same
value. -/
theorem valueWithin_abreast (m : Nat) (hgroup : S.first.inGroup = false)
    (hm : S.first.limit ≤ S.first.depth + m) : ValueAbreast S (valueWithin (m + 1)) := by
  induction m generalizing S with
  | zero =>
    exact valueWithin_succ hgroup hm
      (containerAbreast hgroup fun h => absurd h (Nat.not_lt_of_le hm))
  | succ m ih =>
    refine valueWithin_succ hgroup hm (containerAbreast hgroup fun _ =>
      ih (S := S.deeper) hgroup ?_)
    simp only [Seam.deeper, Frame.deeper]
    omega

theorem value_abreast (hgroup : S.first.inGroup = false) : ValueAbreast S Grammar.value := by
  obtain ⟨habreast, -, -⟩ := valueWithin_abreast (S := S) S.first.limit hgroup (Nat.le_add_left _ _)
  exact ⟨fun p => .limit (habreast p), value_reads hgroup, value_reads (S.inGroup.trans hgroup)⟩

end Diagram.Grammar
