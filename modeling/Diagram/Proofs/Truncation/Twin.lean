import Diagram.Proofs.Truncation.Container
import Diagram.Proofs.Truncation.Tree
import Diagram.Proofs.Twin.Container

/-!
A run with a limit beside one that has room for every container. The second run skips the containers
below its limit, and reports them; the first reads them up to the same brackets, if nothing is wrong
with them. So the second run has the tree of the first with these containers emptied.
-/
namespace Diagram

variable {π : Type}

/-! ## Trees that are cut -/

/-- The problem of a container that is skipped. -/
def Container.tooDeep (f : Nat → π) (c : Container (Span Nat)) : Problem π :=
  ⟨.nestingTooDeep, .place (f c.range.start), f (c.range.start + 1)⟩

/-- The problems of the containers below the limit, latest first. -/
def tooDeepNotes (f : Nat → π) (limit : Nat) (containers : List (Container (Span Nat))) :
    List (Problem π) :=
  ((onLevel (limit + 1) containers).map (Container.tooDeep f)).reverse

theorem tooDeepNotes_flatMap {α : Type} (f : Nat → π) (limit : Nat)
    (g : α → List (Container (Span Nat))) (xs : List α) :
    tooDeepNotes f limit (xs.flatMap g) =
      xs.reverse.flatMap fun x => tooDeepNotes f limit (g x) := by
  induction xs with
  | nil => rfl
  | cons x xs ih =>
    rw [List.reverse_cons, List.flatMap_append, ← ih]
    simp [tooDeepNotes, onLevel]

namespace Rendering

variable (f : Nat → π) {limit level : Nat}

/-- The containers on the given level in other places, and emptied below the limit. The second run
notices those one level below. -/
def cut (limit level : Nat) : Rendering π where
  sequence s := (s.truncate limit level).mapMarks (Span.map f)
  map m := (m.truncate limit level).mapMarks (Span.map f)
  sequenceNotes s := tooDeepNotes f limit (s.containers level)
  mapNotes m := tooDeepNotes f limit (m.containers level)

theorem cut_value (v : Value (Span Nat)) :
    (cut f limit level).value f v = (v.truncate limit level).mapMarks (Span.map f) := by
  cases v <;> rfl

theorem cut_item (x : Item (Span Nat)) :
    (cut f limit level).item f x = (x.truncate limit level).mapMarks (Span.map f) := by
  cases x with
  | value v => exact congrArg Item.value (cut_value f v)
  | comment _ | blockComment _ | substitution _ => rfl

theorem cut_entry (x : Entry (Span Nat)) :
    (cut f limit level).entry f x = (x.truncate limit level).mapMarks (Span.map f) := by
  cases x with
  | key k =>
    refine congrArg Entry.key ?_
    simp only [Rendering.key, Key.truncate_eq, Key.mapMarks_eq, Option.map_map]
    exact congrArg _ (congrArg (fun g => k.value.map g) (funext (cut_value f)))
  | comment _ | blockComment _ | substitution _ => rfl

theorem cut_valueNotes (v : Value (Span Nat)) :
    (cut f limit level).valueNotes v = tooDeepNotes f limit (v.containers level) := by
  cases v <;> rfl

theorem cut_itemNotes (x : Item (Span Nat)) :
    (cut f limit level).itemNotes x = tooDeepNotes f limit (x.containers level) := by
  cases x with
  | value v => exact cut_valueNotes f v
  | comment _ | blockComment _ | substitution _ => rfl

theorem cut_entryNotes (x : Entry (Span Nat)) :
    (cut f limit level).entryNotes x = tooDeepNotes f limit (x.containers level) := by
  match x with
  | .key ⟨_, _, _, _, _, _, _, none⟩ => rfl
  | .key ⟨_, _, _, _, _, _, _, some v⟩ => exact cut_valueNotes f v
  | .comment _ | .blockComment _ | .substitution _ => rfl

/-! ### Within the limit -/

section

variable (h : level ≤ limit)

include h

theorem cut_sequence :
    (cut f limit level).sequence = (cut f limit (level + 1)).enteredSequence f := by
  funext s
  obtain ⟨range, items⟩ := s
  simp only [cut, enteredSequence, Sequence.truncate, if_neg (Nat.not_lt_of_le h),
    Sequence.mapMarks, Item.truncateAll_eq, Item.mapMarksAll_eq, List.map_map]
  exact congrArg (Sequence.mk _)
    (congrArg (fun g => items.map g) (funext fun x => (cut_item f x).symm))

theorem cut_map : (cut f limit level).map = (cut f limit (level + 1)).enteredMap f := by
  funext m
  obtain ⟨range, entries⟩ := m
  simp only [cut, enteredMap, Map.truncate, if_neg (Nat.not_lt_of_le h), Map.mapMarks,
    Entry.truncateAll_eq, Entry.mapMarksAll_eq, List.map_map]
  exact congrArg (Map.mk _)
    (congrArg (fun g => entries.map g) (funext fun x => (cut_entry f x).symm))

/-- A container within the limit is not among those below it. -/
theorem tooDeepNotes_cons {c : Container (Span Nat)} (hc : c.level = level)
    (containers : List (Container (Span Nat))) :
    tooDeepNotes f limit (c :: containers) = tooDeepNotes f limit containers := by
  have hne : c.level ≠ limit + 1 := by omega
  rw [tooDeepNotes, onLevel_cons_of_ne hne]
  rfl

theorem cut_sequenceNotes :
    (cut f limit level).sequenceNotes = (cut f limit (level + 1)).enteredSequenceNotes := by
  funext s
  obtain ⟨range, items⟩ := s
  show tooDeepNotes f limit (_ :: Item.containersAll (level + 1) items) =
    items.reverse.flatMap (cut f limit (level + 1)).itemNotes
  rw [tooDeepNotes_cons f h rfl, Item.containersAll_eq, tooDeepNotes_flatMap]
  exact congrArg (fun g => items.reverse.flatMap g) (funext fun x => (cut_itemNotes f x).symm)

theorem cut_mapNotes :
    (cut f limit level).mapNotes = (cut f limit (level + 1)).enteredMapNotes := by
  funext m
  obtain ⟨range, entries⟩ := m
  show tooDeepNotes f limit (_ :: Entry.containersAll (level + 1) entries) =
    entries.reverse.flatMap (cut f limit (level + 1)).entryNotes
  rw [tooDeepNotes_cons f h rfl, Entry.containersAll_eq, tooDeepNotes_flatMap]
  exact congrArg (fun g => entries.reverse.flatMap g) (funext fun x => (cut_entryNotes f x).symm)

end

/-! ### Below the limit -/

variable (limit) in
/-- The only container below the limit is the one that is skipped: those in it are deeper. -/
theorem tooDeepNotes_single {c : Container (Span Nat)} (hc : c.level = limit + 1)
    {containers : List (Container (Span Nat))} (h : ∀ x ∈ containers, limit + 1 < x.level) :
    tooDeepNotes f limit (c :: containers) = [c.tooDeep f] := by
  rw [tooDeepNotes, onLevel_cons_of_eq hc, onLevel_eq_nil h]
  rfl

variable (limit) in
theorem cut_skippedSequence (s : Sequence (Span Nat)) :
    (cut f limit (limit + 1)).sequence s = ⟨s.range.map f, []⟩ ∧
      (cut f limit (limit + 1)).sequenceNotes s =
        [⟨.nestingTooDeep, .place (f s.range.start), f (s.range.start + 1)⟩] := by
  obtain ⟨range, items⟩ := s
  refine ⟨?_, tooDeepNotes_single f limit rfl (Item.le_level_all _ items)⟩
  simp only [cut, Sequence.truncate, if_pos (Nat.lt_succ_self limit)]
  rfl

variable (limit) in
theorem cut_skippedMap (m : Map (Span Nat)) :
    (cut f limit (limit + 1)).map m = ⟨m.range.map f, []⟩ ∧
      (cut f limit (limit + 1)).mapNotes m =
        [⟨.nestingTooDeep, .place (f m.range.start), f (m.range.start + 1)⟩] := by
  obtain ⟨range, entries⟩ := m
  refine ⟨?_, tooDeepNotes_single f limit rfl (Entry.le_level_all _ entries)⟩
  simp only [cut, Map.truncate, if_pos (Nat.lt_succ_self limit)]
  rfl

end Rendering

/-! ## Two runs -/

/-- The second run is at the same level and has the given limit. Any problem of the first run makes
the comparison void. -/
structure Pairing.Truncates (K : Pairing π) (limit : Nat) : Prop where
  voids : ∀ cause, K.voids cause
  tail : K.tail = []
  shift : K.shift = 0
  limit : K.second.limit = limit
  overt : K.first.Overt
  inGroup : K.first.inGroup = false

namespace Pairing.Truncates

variable {K : Pairing π} {limit : Nat} (h : K.Truncates limit)

include h

theorem deeper : K.deeper.Truncates limit :=
  ⟨h.voids, h.tail, h.shift, h.limit, h.overt, h.inGroup⟩

theorem noting (problems : List (Problem π)) : (K.noting problems).Truncates limit :=
  ⟨h.voids, h.tail, h.shift, h.limit, h.overt, h.inGroup⟩

theorem depth : K.second.depth = K.first.depth := by
  rw [K.depth, h.shift, Nat.add_zero]

end Pairing.Truncates

/-- The same span of the common text in the second run. -/
theorem Pairing.cover_map (K : Pairing π) {i j : Nat} (hij : i ≤ j) (hj : j ≤ K.first.text.length) :
    (K.first.cover i j).map K.place = K.second.cover (K.base.length + i) (K.base.length + j) := by
  rw [Frame.cover, Span.map, K.first_mark (Nat.le_trans hij hj), K.first_mark hj, Frame.cover,
    K.place_eq (Nat.le_trans hij hj), K.place_eq hj]

/-- What the first run has consumed of a container is ahead of the second. -/
theorem Pairing.ahead (K : Pairing π) {p a : List Char} {opening closing : Char} {s' : State Nat}
    (hs' : s'.At K.first (closing :: (a.reverse ++ opening :: p)) []) :
    ∃ v, K.second.text.drop (opening :: (p ++ K.base)).length = a ++ closing :: v := by
  have htext : K.second.text = (opening :: (p ++ K.base)).reverse ++
      (a ++ closing :: (s'.reader.unread ++ K.tail)) := by
    rw [K.text, ← hs'.reader.text]
    simp
  exact ⟨_, htext ▸ List.drop_left' List.length_reverse⟩

/-- The second run skips the characters that the first has read, and reports where they start. -/
theorem Pairing.skipped (K : Pairing π) {p a : List Char} {opening closing : Char} {s' : State Nat}
    {t t' : State π} {range : Span Nat}
    (hs' : s'.At K.first (closing :: (a.reverse ++ opening :: p)) [])
    (hrange : range = K.first.cover p.length (closing :: (a.reverse ++ opening :: p)).length)
    (hskip : Grammar.Skipped K.second (p ++ K.base)
      (closing :: (a.reverse ++ opening :: (p ++ K.base))) t t') :
    K.second.cover (p ++ K.base).length
        (closing :: (a.reverse ++ opening :: (p ++ K.base))).length = range.map K.place ∧
      t'.problems =
        ⟨.nestingTooDeep, .place (K.place range.start), K.place (range.start + 1)⟩ :: t.problems ∧
      t'.At K.second (closing :: (a.reverse ++ opening :: p) ++ K.base) [] := by
  obtain ⟨hat, hproblems⟩ := hskip
  have hlength : (closing :: (a.reverse ++ opening :: p)).length ≤ K.first.text.length := by
    simpa using hs'.reader.length_le
  have hshort : p.length + 1 ≤ (closing :: (a.reverse ++ opening :: p)).length := by
    simp
    omega
  have hstart : range.start = p.length := by
    rw [hrange]
    exact K.first_mark (by omega)
  refine ⟨?_, ?_, by simpa using hat⟩
  · rw [hrange, K.cover_map (by omega) hlength]
    congr 1
    · simp [Nat.add_comm]
    · simp
      omega
  · rw [hproblems, hstart, K.place_eq (i := p.length) (by omega),
      K.place_eq (i := p.length + 1) (by omega), List.length_append, Nat.add_comm p.length,
      Nat.add_assoc]

namespace Grammar

variable {K : Pairing π} {limit : Nat} {p : List Char}

/-- The second run notices problems of its own where the first notices none. -/
theorem Alike.skipped {α β : Type} {l : List Char} {g₁ : Grammar Nat α} {g₂ : Grammar π β}
    {f : α → β} {N : α → List (Problem π)} (hK : K.Truncates limit)
    (h : ∀ s t, Twin K p l s t → (g₁ s).2.problems = [] → (g₂ t).1 = f (g₁ s).1 ∧
      (g₂ t).2.problems = N (g₁ s).1 ++ t.problems ∧
      ∃ q, (g₁ s).2.At K.first q [] ∧ (g₂ t).2.At K.second (q ++ K.base) []) :
    Alike K (Twin K p l) g₁ g₂ Never (Notes K f N) := by
  intro s t hs
  cases hproblems : (g₁ s).2.problems with
  | cons x xs => exact .inl (.inl ⟨x, hproblems ▸ List.mem_cons_self, hK.voids _⟩)
  | nil =>
    obtain ⟨hresult, hnotes, q, hat, hat'⟩ := h s t hs hproblems
    refine .inr ⟨hresult, q, hat, hat', ?_, ?_, fun _ => hproblems, ?_⟩
    · rw [hnotes, hs.problems, problems_nil g₁ hproblems, hproblems]
      rfl
    · rw [hproblems]
      exact nofun
    · exact ⟨fun ⟨cause, hcause⟩ => absurd (hK.voids cause) hcause,
        fun htail => absurd hK.tail htail⟩

variable [DecidableEq π] {inner₁ : Grammar Nat (Option (Value (Span Nat)))}
  {inner₂ : Grammar π (Option (Value (Span π)))}

/-- Where the first run has no room, it notices a problem. -/
theorem containerTwins_full (hK : K.Truncates limit) (hfull : K.first.limit ≤ K.first.depth)
    (φ : Rendering π) : ContainerTwins φ K inner₁ inner₂ := by
  have hvoid := hK.voids .nestingTooDeep
  refine ⟨fun p s t hs => .inl ?_, fun p s t hs => .inl ?_⟩
  · have hstray : Ensures (State.At K.first ('[' :: p) []) (sequence inner₁) (K.Astray Never) :=
      .placeOf (by decide) (.atLimit (.ite (fun _ => skipContainer_astray hvoid _ _ _ _)
        fun hroom => absurd (decide_eq_true hfull) hroom))
    exact hstray s hs.first
  · have hstray : Ensures (State.At K.first ('{' :: p) []) (map inner₁) (K.Astray Never) :=
      .outsideGroup hK.inGroup (.placeOf (by decide) (.atLimit
        (.ite (fun _ => skipContainer_astray hvoid _ _ _ _)
          fun hroom => absurd (decide_eq_true hfull) hroom)))
    exact hstray s hs.first

/-- Both runs enter a container that is within the limit. -/
theorem containerTwins_within (hK : K.Truncates limit) (hroom : K.first.depth < K.first.limit)
    (hdepth : K.first.depth < limit)
    (hinner : ValueTwins (.cut K.place limit (K.first.depth + 2)) K.deeper inner₁ inner₂) :
    ContainerTwins (.cut K.place limit (K.first.depth + 1)) K inner₁ inner₂ := by
  have hfirst : decide (K.first.limit ≤ K.first.depth) = false :=
    decide_eq_false (Nat.not_le.mpr hroom)
  have hsecond : decide (K.second.limit ≤ K.second.depth) = false := by
    rw [hK.limit, hK.depth]
    exact decide_eq_false (Nat.not_le.mpr hdepth)
  refine ⟨fun p => .placeOf (by decide) (.eachLimit ?_), fun p =>
    .outsideGroup hK.inGroup (.placeOf (by decide) (.eachLimit ?_))⟩
  · rw [hfirst, hsecond, Rendering.cut_sequence _ hdepth, Rendering.cut_sequenceNotes _ hdepth]
    exact enteredSequence_alike hinner p.length ('[' :: p)
  · rw [hfirst, hsecond, Rendering.cut_map _ hdepth, Rendering.cut_mapNotes _ hdepth]
    exact enteredMap_alike hK.inGroup hinner p.length ('{' :: p)

/-- At its limit, the second run skips a container that the first reads. -/
theorem containerTwins_skipped (hK : K.Truncates limit) (hdepth : K.first.depth = limit)
    (hreads : K.first.depth < K.first.limit →
      Reads K.first.deeper (Value.Within K.first.cover) inner₁)
    (hbalances : K.first.depth < K.first.limit → Balances K.first.deeper inner₁) :
    ContainerTwins (.cut K.place limit (limit + 1)) K inner₁ inner₂ := by
  have hdeep : K.second.limit ≤ K.second.depth :=
    Nat.le_of_eq (hK.limit.trans (hdepth.symm.trans hK.depth.symm))
  have hgroup : K.second.inGroup = false := K.inGroup.trans hK.inGroup
  refine ⟨fun p => .skipped hK fun s t hs hclean => ?_,
    fun p => .skipped hK fun s t hs hclean => ?_⟩
  · obtain ⟨_, hat, hrange, a, rfl, ha⟩ :=
      sequence_closes hK.overt hreads hbalances p s hs.first hclean
    obtain ⟨v, hahead⟩ := K.ahead hat
    obtain ⟨hresult, hskip⟩ := sequence_skipped inner₂ hdeep ha hs.second hahead
    obtain ⟨hrange', hproblems, hat'⟩ := K.skipped hat hrange hskip
    obtain ⟨hsequence, hnotes⟩ := Rendering.cut_skippedSequence K.place limit (sequence inner₁ s).1
    rw [hsequence, hnotes]
    exact ⟨hresult.trans (congrArg (Sequence.mk · []) hrange'), hproblems, _, hat, hat'⟩
  · obtain ⟨_, hat, hrange, a, rfl, ha⟩ :=
      map_closes hK.overt hK.inGroup hreads hbalances p s hs.first hclean
    obtain ⟨v, hahead⟩ := K.ahead hat
    obtain ⟨hresult, hskip⟩ := map_skipped inner₂ hgroup hdeep ha hs.second hahead
    obtain ⟨hrange', hproblems, hat'⟩ := K.skipped hat hrange hskip
    obtain ⟨hmap, hnotes⟩ := Rendering.cut_skippedMap K.place limit (map inner₁ s).1
    rw [hmap, hnotes]
    exact ⟨hresult.trans (congrArg (Map.mk · []) hrange'), hproblems, _, hat, hat'⟩

/-- **Values**: with a limit, the second run reads the values of the first with the containers below
the limit emptied. -/
theorem valueWithin_cut (m n : Nat) (hK : K.Truncates limit) (hdepth : K.first.depth ≤ limit)
    (hm : K.first.limit ≤ K.first.depth + m) (hn : limit ≤ K.first.depth + n) :
    ValueTwins (.cut K.place limit (K.first.depth + 1)) K (valueWithin (m + 1))
      (valueWithin (n + 1)) := by
  -- on the levels that the first run may still enter
  induction m generalizing n K with
  | zero =>
    refine valueWithin_succ_twins hK.inGroup hm (.inl (hK.voids _)) fun problems => ?_
    exact containerTwins_full (hK.noting problems) hm _
  | succ m ih =>
    refine valueWithin_succ_twins hK.inGroup hm (.inl (hK.voids _)) fun problems => ?_
    have hdeeper : K.first.deeper.limit ≤ K.first.deeper.depth + m := by
      simp only [Frame.deeper]
      omega
    rcases Nat.lt_or_ge K.first.depth limit with hwithin | hdeep
    · rcases Nat.lt_or_ge K.first.depth K.first.limit with hroom | hfull
      · obtain ⟨n, rfl⟩ : ∃ k, n = k + 1 := ⟨n - 1, by omega⟩
        refine containerTwins_within (hK.noting problems) hroom hwithin ?_
        refine ValueTwins.noting (K := K.deeper) (ih (K := K.deeper) n hK.deeper hwithin hdeeper ?_)
          problems
        simp only [Pairing.deeper, Frame.deeper]
        omega
      · exact containerTwins_full (hK.noting problems) hfull _
    · have hsame : K.first.depth = limit := Nat.le_antisymm hdepth hdeep
      rw [hsame]
      exact containerTwins_skipped (hK.noting problems) hsame
        (fun _ => valueWithin_reads (F := K.first.deeper) m hK.inGroup hdeeper)
        (fun _ => valueWithin_balances (F := K.first.deeper) m hK.overt hK.inGroup hdeeper)

theorem value_cut (hK : K.Truncates limit) (houtermost : K.first.depth = 0) :
    ValueTwins (.cut K.place limit 1) K value value := by
  have h := valueWithin_cut K.first.limit K.second.limit hK (houtermost ▸ Nat.zero_le limit)
    (Nat.le_add_left _ _) (hK.limit ▸ Nat.le_add_left _ _)
  rw [houtermost] at h
  exact h.value hK.inGroup

/-- The map of a whole file stands on the level 0. -/
theorem fileMap_cut (hK : K.Truncates limit) (houtermost : K.first.depth = 0) (p : List Char) :
    Alike K (Twin K p []) (fileMap value) (fileMap value) Never
      (Notes K (fun m => (m.truncate limit 0).mapMarks (Span.map K.place))
        fun m => tooDeepNotes K.place limit (m.containers 0)) := by
  have h := fileMap_notes hK.tail hK.inGroup (value_cut hK houtermost) p
  rw [← Rendering.cut_map K.place (Nat.zero_le limit),
    ← Rendering.cut_mapNotes K.place (Nat.zero_le limit)] at h
  exact h

end Grammar

end Diagram
