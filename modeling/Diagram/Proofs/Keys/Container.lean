import Diagram.Proofs.Keys.Edge

/-!
The keys of a tree are formed as keys should be, and every map but that of the file starts at a
brace, behind the place where the entry around it starts: a brace alone starts no entry, because
nothing is named in front of it.
-/
namespace Diagram.Grammar

variable {π α β : Type} {F : Frame π} {lo : Nat}

/-- A key is named and its parts fit. A map starts at a brace, at the index `lo` or behind it. -/
def PartFormed (F : Frame π) (lo : Nat) (problems : List (Problem π)) : Part (Span π) → Prop
  | .key k => k.isNamed ∧ k.Formed (Reported problems)
  | .map m => ∃ i, lo ≤ i ∧ F.text[i]? = some '{' ∧ m.range.start = F.mark i

/-- All of the keys and maps are formed as they should be. -/
def AllFormed (F : Frame π) (lo : Nat) (problems : List (Problem π))
    (parts : List (Part (Span π))) : Prop :=
  ∀ x ∈ parts, PartFormed F lo problems x

theorem allFormed_nil {problems : List (Problem π)} : AllFormed F lo problems [] := by
  intro x hx
  cases hx

theorem allFormed_append {problems : List (Problem π)} {xs ys : List (Part (Span π))} :
    AllFormed F lo problems (xs ++ ys) ↔ AllFormed F lo problems xs ∧ AllFormed F lo problems ys :=
  List.forall_mem_append

theorem AllFormed.lasting (parts : List (Part (Span π))) :
    Lasting fun xs => AllFormed F lo xs parts := by
  intro xs ys hsuffix h x hx
  have hx := h x hx
  cases x with
  | key k => exact ⟨hx.1, formed_lasting k xs ys hsuffix hx.2⟩
  | map m => exact hx

/-- Where maps start is known better if they start at no earlier index. -/
theorem AllFormed.mono {problems : List (Problem π)} {parts : List (Part (Span π))} {lo' : Nat}
    (h : AllFormed F lo problems parts)
    (hlo : ∀ i, lo ≤ i → F.text[i]? = some '{' → lo' ≤ i) : AllFormed F lo' problems parts := by
  intro x hx
  have hx := h x hx
  cases x with
  | key k => exact hx
  | map m =>
    obtain ⟨i, hi, hbrace, hstart⟩ := hx
    exact ⟨i, hlo i hi hbrace, hbrace, hstart⟩

/-- A part of the grammar whose keys and maps are formed as they should be, and stay so. -/
theorem Ensures.callFormed {P : State π → Prop} {Q : β → State π → Prop} {g : Grammar π α}
    {f : α → Grammar π β} {m : Nat} {R : α → Nat → Prop} {parts : α → List (Part (Span π))}
    (hreads : Ensures P g (Onward F m R))
    (hformed : Ensures P g fun a s => AllFormed F lo s.problems (parts a))
    (hf : ∀ a q, m ≤ q.length → R a q.length →
      Ensures (State.At F q []) (f a) fun b s => AllFormed F lo s.problems (parts a) → Q b s) :
    Ensures P (g >>= f) Q :=
  .callLasting (H := fun a xs => AllFormed F lo xs (parts a)) (fun a => AllFormed.lasting (parts a))
    hreads hformed hf

/-! ## Keys -/

/-- Values are read as they should be, and at a brace there is a map. -/
structure FormedValue (F : Frame π) (value : Grammar π (Option (Value (Span π)))) : Prop where
  reads : Reads F (Value.Within F.cover) value
  formed : ∀ p, Ensures (State.At F p []) value fun v s =>
    AllFormed F p.length s.problems (Value.parts? v)
  opens : ∀ p : List Char, F.text[p.length]? = some '{' →
    Ensures (State.At F p []) value fun v _ => ∃ m, v = some (.map m)

/-- The parts of a key fit, and so do the keys and maps in its value. -/
def FormedKey (F : Frame π) (lo : Nat) (k : Key (Span π)) (s : State π) : Prop :=
  k.Formed (Reported s.problems) ∧ AllFormed F lo s.problems (Value.parts? k.value)

theorem Fresh.formedKey {k : Key (Span π)} (h : Fresh k) (s : State π) : FormedKey F lo k s := by
  refine ⟨h.alone, ?_⟩
  rw [h.value]
  exact allFormed_nil

theorem FormedKey.mono {k : Key (Span π)} {s : State π} {lo' : Nat} (h : FormedKey F lo k s)
    (hlo : lo' ≤ lo) : FormedKey F lo' k s :=
  ⟨h.1, h.2.mono fun _ hi _ => Nat.le_trans hlo hi⟩

section

variable {value : Grammar π (Option (Value (Span π)))} (hvalue : FormedValue F value)

include hvalue

theorem mapBehind_formed {key : Key (Span π)} (hprimary : key.primary = none)
    (scalar : Scalar (Span π)) (p : List Char) :
    Ensures (State.At F p []) (mapBehind value key scalar) fun k s =>
      key.Formed (Reported s.problems) → FormedKey F p.length k s := by
  have hplain : Ensures (State.At F p []) (pure { key with value := some (.scalar scalar) })
      fun k s => key.Formed (Reported s.problems) → FormedKey F p.length k s :=
    .pure fun s _ h => ⟨⟨h.path, h.edgePath, h.edges, by simp [hprimary]⟩, allFormed_nil⟩
  refine .peekOnLine hplain fun b c _ => .ite ?_ fun _ => .retreat hplain
  rintro rfl
  refine .accept (.known_of_consumed fun hbrace => .putBack (by decide) ?_)
  have hreads : Ensures (State.At F (b ++ [] ++ p) []) value
      (Onward F (b ++ [] ++ p).length fun v _ => ∃ m, v = some (.map m)) := by
    intro s hs
    obtain ⟨q, hq, hat, -⟩ := hvalue.reads _ s hs
    exact ⟨q, hq, hat, hvalue.opens _ hbrace s hs⟩
  refine .callFormed hreads (hvalue.formed _) fun v q _ hv => .pure fun s _ hparts h => ?_
  refine ⟨⟨h.path, h.edgePath, h.edges, fun _ => hv⟩, hparts.mono fun i hi _ => ?_⟩
  simp at hi
  omega

theorem valueOfKey_formed {key : Key (Span π)} (hprimary : key.primary = none) (p : List Char) :
    Ensures (State.At F p []) (valueOfKey value key) fun k s =>
      key.Formed (Reported s.problems) → FormedKey F p.length k s := by
  have hkey : ∀ {v : Option (Value (Span π))} {s : State π}, key.Formed (Reported s.problems) →
      Key.Formed (Reported s.problems) { key with value := v } :=
    fun h => ⟨h.path, h.edgePath, h.edges, by simp [hprimary]⟩
  refine .callFormed (hvalue.reads p) (hvalue.formed p) fun v q hq _ => ?_
  match v with
  | none => exact .here (.reportAtColon (.pure fun s _ hparts h => ⟨hkey h, hparts⟩))
  | some (.scalar scalar) =>
    exact (mapBehind_formed hvalue hprimary scalar q).weaken fun k s h _ hkey => (h hkey).mono hq
  | some (.sequence x) => exact .pure fun s _ hparts h => ⟨hkey h, hparts⟩
  | some (.map m) => exact .pure fun s _ hparts h => ⟨hkey h, hparts⟩

theorem keyValue_formed {key : Key (Span π)} (hprimary : key.primary = none)
    (hnone : key.value = none) (p : List Char) :
    Ensures (State.At F p []) (keyValue value key) fun k s =>
      key.Formed (Reported s.problems) → FormedKey F p.length k s := by
  have hdone : Ensures (State.At F p []) (pure key) fun k s =>
      key.Formed (Reported s.problems) → FormedKey F p.length k s := by
    refine .pure fun s _ h => ⟨h, ?_⟩
    rw [hnone]
    exact allFormed_nil
  refine .peekOnLine hdone fun b c _ => .ite (fun _ => ?_) fun _ => .ite (fun _ => ?_) fun _ =>
    .retreat hdone
  · exact .retreat (.ite (fun _ => valueOfKey_formed hvalue hprimary p) fun _ => hdone)
  · refine .accept (.whenever (fun _ => .reportToHere_stays) ?_)
    refine (valueOfKey_formed hvalue hprimary _).weaken fun k s h hkey => (h hkey).mono ?_
    simp
    omega

end

section

variable {value : Grammar π (Option (Value (Span π)))} (hgroup : F.inGroup = false)
  (hvalue : FormedValue F value)

include hgroup hvalue

/-- What a key is read on by of which at most a path has been read. -/
def FormsParts (F : Frame π) (g : Key (Span π) → Grammar π (Key (Span π))) : Prop :=
  ∀ n key p, n ≤ p.length → key.PartsWithin F.cover n p.length → Fresh key →
    Ensures (State.At F p []) (g key) (FormedKey F p.length)

theorem edgeGroup_formed : FormsParts F (edgeGroup value) := by
  intro n key p hn hparts hfresh
  have hreads : Ensures (State.At (F.grouped true) p []) (groupParts key)
      (Onward (F.grouped true) p.length fun r _ => r.1.primary = none ∧ r.1.value = none) := by
    intro s hs
    obtain ⟨q, hq, hat, -⟩ := groupParts_reads (F := F.grouped true) hn hparts s hs
    obtain ⟨edges, edgeIndex, edgePath, heq⟩ := groupParts_eq key s
    exact ⟨q, hq, hat, (congrArg Key.primary heq).trans hfresh.primary,
      (congrArg Key.value heq).trans hfresh.value⟩
  refine .setGroup (.callLasting (H := fun r xs => r.1.Formed (Reported xs))
    (fun r => formed_lasting r.1) hreads (fun s _ => groupParts_formed hfresh s)
      fun r q hq hr => ?_)
  refine .setGroup ?_
  rw [Frame.grouped_grouped hgroup]
  refine .ite (fun _ => ?_) fun _ => .pure fun s _ h => ⟨h, ?_⟩
  · exact (keyValue_formed hvalue hr.1 hr.2 q).weaken fun k s h hkey => (h hkey).mono hq
  · rw [hr.2]
    exact allFormed_nil

theorem keyBehindPath_formed : FormsParts F (keyBehindPath value) := by
  intro n key p hn hparts hfresh
  refine .peekOnLine (.pure fun s _ => hfresh.formedKey s) fun b c _ =>
    .ite (fun _ => .accept ?_) fun _ => .ite (fun _ => .retreat ?_) fun _ => .retreat ?_
  · refine (edgeGroup_formed hgroup hvalue n key _ (by simp; omega) (hparts.mono (by simp; omega))
      hfresh).weaken fun k s h => h.mono ?_
    simp
    omega
  · refine .callLasting (H := fun edges xs => Edge.Chained (Reported xs) edges) chained_lasting
      (edges_reads hn hparts.1) (fun s _ => edges_formed hfresh.path s) fun edges q hq _ => ?_
    let behind : Key (Span π) := { key with path := none, edges }
    have hbehind : behind.primary = none ∧ behind.value = none := ⟨hfresh.primary, hfresh.value⟩
    refine (keyValue_formed hvalue hbehind.1 hbehind.2 q).weaken fun k s h hedges => (h ?_).mono hq
    exact hfresh.formed (by simp) hedges
  · exact (keyValue_formed hvalue hfresh.primary hfresh.value p).weaken fun k s h => h hfresh.alone

theorem keyBehindAmpersand_formed : FormsParts F (keyBehindAmpersand value) := by
  intro n key p hn hparts hfresh
  refine .peek (.pure fun s _ => hfresh.formedKey s) fun c =>
    .ite (fun _ => .accept ?_) fun _ => .retreat ?_
  · exact (edgeGroup_formed hgroup hvalue n key (c :: p) (by simp; omega)
      (hparts.mono (Nat.le_succ p.length)) hfresh).weaken fun k s h => h.mono (Nat.le_succ p.length)
  · have hreads : Ensures (State.At F p []) path (Onward F p.length fun path j =>
        (∀ x ∈ path, x.segments ≠ []) ∧ ∀ x ∈ path, x.Within F.cover p.length j) := by
      intro s hs
      obtain ⟨q, hq, hat, hwithin⟩ := path_reads p s hs
      exact ⟨q, hq, hat, path_segments s, hwithin⟩
    refine .call hreads fun path q hq ⟨hsegments, hpath⟩ => ?_
    exact (keyBehindPath_formed hgroup hvalue n _ q (by omega) (hparts.behindPath hn hq hpath)
      { hfresh with path := hsegments }).weaken fun k s h => h.mono hq

theorem keyParts_formed : FormsParts F (keyParts value) := by
  intro n key p hn hparts hfresh
  refine .peek (.pure fun s _ => hfresh.formedKey s) fun c =>
    .ite (fun _ => .accept ?_) fun _ => .retreat ?_
  · exact (keyBehindAmpersand_formed hgroup hvalue n { key with ampersand := true } (c :: p)
      (by simp; omega) (hparts.mono (Nat.le_succ p.length)) { hfresh with }).weaken
      fun k s h => h.mono (Nat.le_succ p.length)
  · exact keyBehindAmpersand_formed hgroup hvalue n key p hn hparts hfresh

end

/-- The maps in a key start behind the place where the key does: a brace there would not be part of
a key. -/
theorem key_formed (hgroup : F.inGroup = false) {value : Grammar π (Option (Value (Span π)))}
    (hvalue : FormedValue F value) (p : List Char) :
    Ensures (State.At F p []) (key value) fun k s =>
      AllFormed F (p.length + 1) s.problems (Entry.partsAll (k.map Entry.key).toList) := by
  by_cases hbrace : F.text[p.length]? = some '{'
  · refine (key_nameless (by decide) hbrace value).weaken fun k s h => ?_
    rw [h.1]
    exact allFormed_nil
  · have hfresh : Fresh (Key.empty (⟨F.mark p.length, F.mark p.length⟩ : Span π)) :=
      ⟨by simp [Key.empty], rfl, rfl, rfl, rfl⟩
    refine .here (.bind (keyParts_formed hgroup hvalue _ _ p (Nat.le_refl _) (.empty _) hfresh)
      fun k => ?_)
    have hend : ∀ stop, Ensures (FormedKey F p.length k)
        (if k.isNamed then pure (some { k with range := ⟨F.mark p.length, stop⟩ }) else pure none)
        fun k s => AllFormed F (p.length + 1) s.problems
          (Entry.partsAll (k.map Entry.key).toList) := by
      refine fun stop => .ite (fun hnamed => .pure fun s hformed => ?_) fun _ =>
        .pure fun _ _ => allFormed_nil
      obtain ⟨hkey, hinside⟩ := hformed
      rw [Option.map_some, Option.toList_some, Entry.partsAll, Entry.parts, Key.parts_eq]
      refine allFormed_append.mpr ⟨List.forall_mem_cons.mpr ⟨⟨hnamed, ?_⟩, ?_⟩, allFormed_nil⟩
      · exact ⟨hkey.path, hkey.edgePath, hkey.edges, hkey.primary⟩
      · refine hinside.mono fun i hi hi' => Nat.lt_of_le_of_ne hi ?_
        rintro rfl
        exact hbrace hi'
    exact fun s hs => hend _ s hs

/-! ## Maps and sequences -/

/-- Neither keys nor maps are in a remark. -/
theorem Remark.parts_toEntry {ρ : Type} (r : Option (Remark ρ)) :
    Entry.partsAll (r.map Remark.toEntry).toList = [] := by
  cases r with
  | none => rfl
  | some r => cases r <;> rfl

theorem Remark.parts_toItem {ρ : Type} (r : Option (Remark ρ)) :
    Item.partsAll (r.map Remark.toItem).toList = [] := by
  cases r with
  | none => rfl
  | some r => cases r <;> rfl

section

variable {value : Grammar π (Option (Value (Span π)))} (hgroup : F.inGroup = false)
  (hvalue : FormedValue F value)

include hgroup hvalue

theorem entry_formed {c : Char} (hc : isBlank c = false) (p : List Char) :
    Ensures (State.At F (c :: p) []) (entry value c) fun e s =>
      AllFormed F (p.length + 1) s.problems (Entry.partsAll e.toList) := by
  refine .nodeStart hc (fun r q _ _ => .pure fun s _ => ?_) fun _ => ?_
  · rw [Remark.parts_toEntry]
    exact allFormed_nil
  · exact .bind (key_formed hgroup hvalue p) fun k => .pure fun _ h => h

omit hgroup in
theorem item_formed {c : Char} (hc : isBlank c = false) (p : List Char) :
    Ensures (State.At F (c :: p) []) (item value c) fun x s =>
      AllFormed F p.length s.problems (Item.partsAll x.toList) := by
  refine .nodeStart hc (fun r q _ _ => .pure fun s _ => ?_) fun _ => ?_
  · rw [Remark.parts_toItem]
    exact allFormed_nil
  · refine .callFormed (hvalue.reads p) (hvalue.formed p) fun v q _ _ => ?_
    cases v with
    | some v => exact .pure fun _ _ h => allFormed_append.mpr ⟨h, allFormed_nil⟩
    | none =>
      refine .here (.read (.reportToHere ?_) fun _ => .reportToHere ?_)
      · exact .pure fun _ _ _ => allFormed_nil
      · exact .pure fun _ _ _ => allFormed_nil

variable [DecidableEq π]

theorem entryLine_formed (entries : List (Entry (Span π))) {c : Char} (hc : isBlank c = false)
    {p : List Char} (hlo : lo ≤ p.length + 1) :
    Ensures (State.At F (c :: p) []) (entryLine value entries c) fun next s =>
      AllFormed F lo s.problems (Entry.partsAll entries) →
        AllFormed F lo s.problems (Entry.partsAll next.gathered) := by
  refine .callFormed (entry_reads hgroup hvalue.reads hc p) (entry_formed hgroup hvalue hc p)
    fun e q _ _ => ?_
  split
  · exact .pure fun _ _ h hentries => hentries
  · refine .call (trailingText_reads _ _ _ q) fun _ _ _ _ => .pure fun s _ h hentries => ?_
    rw [Next.gathered, Entry.partsAll_append]
    exact allFormed_append.mpr ⟨h.mono fun i hi _ => Nat.le_trans hlo hi, hentries⟩

theorem mapStep_formed (opened : Option π) (entries : List (Entry (Span π))) {p : List Char}
    (hlo : lo ≤ p.length + 1) :
    Ensures (State.At F p []) (mapStep value opened entries) fun next s =>
      AllFormed F lo s.problems (Entry.partsAll entries) →
        AllFormed F lo s.problems (Entry.partsAll next.gathered) := by
  refine .readVisible (fun _ => ?_) fun b c hc => .ite (fun _ => .pure fun _ _ h => h) fun _ =>
    .ite ?_ fun _ => entryLine_formed hgroup hvalue entries hc (p := b ++ p) (by simp; omega)
  · cases opened with
    | none => exact .pure fun _ _ h => h
    | some start => exact .reportToReach (.pure fun _ _ h => h)
  · rintro rfl
    refine .ite (fun _ => .pure fun _ _ h => h) fun _ => ?_
    rw [reportStrayMapEnd, bind_assoc]
    exact .placeOf (by decide) (.reportToHere (.pure fun _ _ h => h))

omit hgroup in
theorem itemLine_formed (items : List (Item (Span π))) {c : Char} (hc : isBlank c = false)
    {p : List Char} (hlo : lo ≤ p.length) :
    Ensures (State.At F (c :: p) []) (itemLine value items c) fun next s =>
      AllFormed F lo s.problems (Item.partsAll items) →
        AllFormed F lo s.problems (Item.partsAll next.gathered) := by
  refine .callFormed (item_reads hvalue.reads hc p) (item_formed hvalue hc p) fun x q _ _ => ?_
  split
  · exact .pure fun _ _ h hitems => hitems
  · refine .call (trailingText_reads _ _ _ q) fun _ _ _ _ => .pure fun s _ h hitems => ?_
    rw [Next.gathered, Item.partsAll_append]
    exact allFormed_append.mpr ⟨h.mono fun i hi _ => Nat.le_trans hlo hi, hitems⟩

omit hgroup in
theorem sequenceStep_formed (start : π) (items : List (Item (Span π))) {p : List Char}
    (hlo : lo ≤ p.length) :
    Ensures (State.At F p []) (sequenceStep value start items) fun next s =>
      AllFormed F lo s.problems (Item.partsAll items) →
        AllFormed F lo s.problems (Item.partsAll next.gathered) :=
  .readVisible (fun _ => .reportToReach (.pure fun _ _ h => h)) fun b c hc =>
    .ite (fun _ => .pure fun _ _ h => h) fun _ => .ite (fun _ => .pure fun _ _ h => h) fun _ =>
      itemLine_formed hvalue items hc (p := b ++ p) (by simp; omega)

end

/-- The order of the children does not matter. -/
theorem allFormed_reverse_entries {problems : List (Problem π)} {entries : List (Entry (Span π))} :
    AllFormed F lo problems (Entry.partsAll entries.reverse) ↔
      AllFormed F lo problems (Entry.partsAll entries) := by
  simp only [AllFormed, Entry.partsAll_eq, List.mem_flatMap, List.mem_reverse]

theorem allFormed_reverse_items {problems : List (Problem π)} {items : List (Item (Span π))} :
    AllFormed F lo problems (Item.partsAll items.reverse) ↔
      AllFormed F lo problems (Item.partsAll items) := by
  simp only [AllFormed, Item.partsAll_eq, List.mem_flatMap, List.mem_reverse]

section

variable {value : Grammar π (Option (Value (Span π)))} [DecidableEq π]

/-- What the steps of a map gather is formed, with the maps behind the place where they start. -/
theorem entries_formed (hgroup : F.inGroup = false) (hvalue : FormedValue F value)
    (opened : Option π) {p : List Char} (hlo : lo ≤ p.length) :
    Ensures (State.At F p []) (repeating (mapStep value opened) []) fun entries s =>
      AllFormed F (lo + 1) s.problems (Entry.partsAll entries) :=
  repeating_lasting (J := fun entries xs => AllFormed F (lo + 1) xs (Entry.partsAll entries))
    (fun entries => AllFormed.lasting (Entry.partsAll entries))
    (I := EntriesWithin F lo) (fun _ _ h => mapStep_reads hgroup hvalue.reads opened h)
    (fun entries q hq => mapStep_formed hgroup hvalue opened entries (by omega)) hlo
    fun _ => allFormed_nil

theorem items_formed (hvalue : FormedValue F value) (start : π) {p : List Char}
    (hlo : lo ≤ p.length) :
    Ensures (State.At F p []) (repeating (sequenceStep value start) []) fun items s =>
      AllFormed F lo s.problems (Item.partsAll items) :=
  repeating_lasting (J := fun items xs => AllFormed F lo xs (Item.partsAll items))
    (fun items => AllFormed.lasting (Item.partsAll items))
    (I := ItemsWithin F lo) (fun _ _ h => sequenceStep_reads hvalue.reads start h)
    (fun items q hq => sequenceStep_formed hvalue start items (by omega)) hlo
    fun _ => allFormed_nil

/-- **Maps**: a map starts at its brace, and the keys and maps inside of it are formed. -/
theorem map_formed (hgroup : F.inGroup = false)
    (hvalue : F.depth < F.limit → FormedValue F.deeper value) (p : List Char) :
    Ensures (State.At F ('{' :: p) []) (map value) fun m s =>
      AllFormed F p.length s.problems m.parts := by
  have hmap : ∀ {m : Map (Span π)} {problems : List (Problem π)}, F.text[p.length]? = some '{' →
      m.range.start = F.mark p.length →
      AllFormed F p.length problems (Entry.partsAll m.entries) →
        AllFormed F p.length problems m.parts := by
    intro m problems hbrace hstart h
    rw [Map.parts_eq]
    exact List.forall_mem_cons.mpr ⟨⟨p.length, Nat.le_refl _, hbrace, hstart⟩, h⟩
  refine .known_of_consumed fun hbrace => .outsideGroup hgroup (.placeOf (by decide) (.atLimit
    (.ite (fun _ => ?_) fun hroom => ?_)))
  · exact .call (skipContainer_reads _ _ _ _ _) fun _ q _ _ =>
      .here (.pure fun s _ => hmap hbrace rfl allFormed_nil)
  · have hinner := hvalue (by simpa using hroom)
    refine .nestedLasting
      (H := fun entries xs => AllFormed F (p.length + 1) xs (Entry.partsAll entries))
      (fun entries => AllFormed.lasting (Entry.partsAll entries))
      (repeating_ensures (I := EntriesWithin F.deeper p.length)
        (fun _ _ h => mapStep_reads (F := F.deeper) hgroup hinner.reads _ h) (Nat.le_succ p.length))
      (entries_formed (F := F.deeper) hgroup hinner _ (Nat.le_succ p.length)) fun entries q _ => ?_
    refine .here (.pure fun s _ h => hmap hbrace rfl ?_)
    exact (allFormed_reverse_entries.mpr h).mono fun i hi _ => Nat.le_of_succ_le hi

/-- **Sequences**: the keys and maps inside of a sequence are formed. -/
theorem sequence_formed (hvalue : F.depth < F.limit → FormedValue F.deeper value) (p : List Char) :
    Ensures (State.At F ('[' :: p) []) (sequence value) fun x s =>
      AllFormed F p.length s.problems x.parts := by
  refine .placeOf (by decide) (.atLimit (.ite (fun _ => ?_) fun hroom => ?_))
  · exact .call (skipContainer_reads _ _ _ _ _) fun _ q _ _ =>
      .here (.pure fun s _ => allFormed_nil)
  · have hinner := hvalue (by simpa using hroom)
    refine .nestedLasting (H := fun items xs => AllFormed F p.length xs (Item.partsAll items))
      (fun items => AllFormed.lasting (Item.partsAll items))
      (repeating_ensures (I := ItemsWithin F.deeper p.length)
        (fun _ _ h => sequenceStep_reads (F := F.deeper) hinner.reads _ h) (Nat.le_succ p.length))
      (items_formed (F := F.deeper) hinner _ (Nat.le_succ p.length)) fun items q _ => ?_
    exact .here (.pure fun s _ h => allFormed_reverse_items.mpr h)

/-- The map of a whole file starts where reading does, and the maps inside of it behind that. -/
theorem fileMap_formed (hgroup : F.inGroup = false) (hvalue : FormedValue F value) (p : List Char) :
    Ensures (State.At F p []) (fileMap value) fun m s => m.range.start = F.mark p.length ∧
      AllFormed F (p.length + 1) s.problems (Entry.partsAll m.entries) := by
  refine .outsideGroup hgroup (.here (.callFormed (repeating_ensures (I := EntriesWithin F p.length)
    (fun _ _ h => mapStep_reads hgroup hvalue.reads none h) (Nat.le_refl _))
    (entries_formed hgroup hvalue none (Nat.le_refl _)) fun entries q _ _ => ?_))
  exact .here (.pure fun s _ h => ⟨rfl, allFormed_reverse_entries.mpr h⟩)

end

/-! ## Values -/

variable [DecidableEq π]

theorem valueFrom_formed {inner : Grammar π (Option (Value (Span π)))} (hgroup : F.inGroup = false)
    (hinner : F.depth < F.limit → FormedValue F.deeper inner) {c : Char} (hc : isBlank c = false)
    (p : List Char) :
    Ensures (State.At F (c :: p) []) (valueFrom inner c) fun v s =>
      AllFormed F p.length s.problems (Value.parts? v) := by
  refine .ite ?_ fun _ => .ite ?_ fun _ => .putBack (ne_newline_of_visible hc) ?_
  · rintro rfl
    exact .bind (sequence_formed hinner p) fun _ => .pure fun _ h => h
  · rintro rfl
    exact .bind (map_formed hgroup hinner p) fun _ => .pure fun _ h => h
  · refine .call (valueText_reads p) fun t _ _ _ => .pure fun _ _ => ?_
    cases t <;> exact allFormed_nil

theorem valueWithin_succ_formed {room : Nat} (hgroup : F.inGroup = false)
    (hinner : F.depth < F.limit → FormedValue F.deeper (valueWithin room)) :
    FormedValue F (valueWithin (room + 1)) where
  reads := valueWithin_succ_reads hgroup fun hdepth => (hinner hdepth).reads
  formed p := by
    refine .outsideGroup hgroup (.peekOnLine (.pure fun _ _ => allFormed_nil) fun b c hc =>
      .accept ?_)
    refine (valueFrom_formed hgroup hinner hc _).weaken fun v s h => h.mono fun i hi _ => ?_
    simp at hi
    omega
  opens p hbrace := by
    refine .outsideGroup hgroup (.peekOnLineKnown hbrace (by decide) (.accept ?_))
    exact .bind (R := fun _ _ => True) (fun _ _ => trivial) fun m => .pure fun _ _ => ⟨m, rfl⟩

/-- **Values**: with room for all the containers that may be entered,
the keys and maps in a value are formed. -/
theorem valueWithin_formed (room : Nat) (hgroup : F.inGroup = false)
    (hroom : F.limit ≤ F.depth + room) : FormedValue F (valueWithin (room + 1)) := by
  induction room generalizing F with
  | zero => exact valueWithin_succ_formed hgroup fun hdepth => absurd hdepth (by omega)
  | succ room ih =>
    refine valueWithin_succ_formed hgroup fun _ => ih (F := F.deeper) hgroup ?_
    simp only [Frame.deeper]
    omega

theorem value_formed (hgroup : F.inGroup = false) : FormedValue F value := by
  have hwithin := valueWithin_formed F.limit hgroup (Nat.le_add_left _ _)
  exact ⟨value_reads hgroup, fun p => .asking (fun _ hs => hs.limit) (hwithin.formed p),
    fun p hbrace => .asking (fun _ hs => hs.limit) (hwithin.opens p hbrace)⟩

end Diagram.Grammar
