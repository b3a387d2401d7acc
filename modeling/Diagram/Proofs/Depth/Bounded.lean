import Diagram.Proofs.Depth.Levels
import Diagram.Proofs.Lasting
import Diagram.Proofs.Sound.Parse

/-!
The limit bounds the tree. The counter that a run keeps is the level of the tree wherever a
container is entered, so that no container is deeper than one level beyond the limit; one that is,
is empty, and it has been reported at its start.
-/
namespace Diagram

namespace Grammar

variable {π α β σ : Type} {F : Frame π}

/-! ## Containers within the limit -/

/-- A container is at most one level beyond the limit. There, it is empty and reported. -/
structure Bounded (F : Frame π) (problems : List (Problem π)) (c : Container (Span π)) : Prop where
  level_le : c.level ≤ F.limit + 1
  empty : c.level = F.limit + 1 → c.size = 0
  reported : c.level = F.limit + 1 →
    ∃ x ∈ problems, x.cause = .nestingTooDeep ∧ x.start = .place c.range.start

/-- All of the containers are within the limit. -/
def Shallow (F : Frame π) (problems : List (Problem π)) (cs : List (Container (Span π))) : Prop :=
  ∀ c ∈ cs, Bounded F problems c

theorem shallow_nil {problems : List (Problem π)} : Shallow F problems [] := by
  intro c hc
  cases hc

theorem shallow_append {problems : List (Problem π)} {cs ds : List (Container (Span π))} :
    Shallow F problems (cs ++ ds) ↔ Shallow F problems cs ∧ Shallow F problems ds :=
  List.forall_mem_append

/-- What is noticed later does not matter. -/
theorem Shallow.lasting (cs : List (Container (Span π))) : Lasting fun xs => Shallow F xs cs := by
  intro problems problems' hsuffix h c hc
  obtain ⟨hle, hempty, hreported⟩ := h c hc
  refine ⟨hle, hempty, fun hlevel => ?_⟩
  obtain ⟨x, hx, hdeep⟩ := hreported hlevel
  exact ⟨x, hsuffix.subset hx, hdeep⟩

namespace Ensures

variable {P : State π → Prop} {Q : β → State π → Prop}

/-- A part of the grammar whose containers are within the limit, and stay so. -/
theorem callShallow {g : Grammar π α} {f : α → Grammar π β} {m : Nat} {R : α → Nat → Prop}
    {cs : α → List (Container (Span π))} (hreads : Ensures P g (Onward F m R))
    (hshallow : Ensures P g fun a s => Shallow F s.problems (cs a))
    (hf : ∀ a q, m ≤ q.length → R a q.length →
      Ensures (State.At F q []) (f a) fun b s => Shallow F s.problems (cs a) → Q b s) :
    Ensures P (g >>= f) Q :=
  .callLasting (H := fun a xs => Shallow F xs (cs a)) (fun a => Shallow.lasting (cs a)) hreads
    hshallow hf

/-- A part of the grammar one level deeper whose containers are within the limit, and stay so. -/
theorem nestedShallow {g : Grammar π α} {f : α → Grammar π β} {R : α → Nat → Prop} {p : List Char}
    {cs : α → List (Container (Span π))}
    (hreads : Ensures (State.At F.deeper p []) g (Onward F.deeper p.length R))
    (hshallow : Ensures (State.At F.deeper p []) g fun a s => Shallow F.deeper s.problems (cs a))
    (hf : ∀ a q, p.length ≤ q.length → Ensures (State.At F q []) (f a) fun b s =>
      Shallow F.deeper s.problems (cs a) → Q b s) :
    Ensures (State.At F p []) (Grammar.nested g >>= f) Q :=
  .nestedLasting (H := fun a xs => Shallow F.deeper xs (cs a)) (fun a => Shallow.lasting (cs a))
    hreads hshallow hf

end Ensures

theorem skipContainer_reported (start : π) (opening closing : Char) (unterminated : Cause)
    (p : List Char) :
    Ensures (State.At F p []) (skipContainer start opening closing unterminated) fun _ s =>
      Noticed .nestingTooDeep start s.problems := by
  have hreported : Leaves (skipContainer start opening closing unterminated) fun _ xs =>
      Noticed .nestingTooDeep start xs :=
    .skip fun _ => .reportToHere fun _ h => h
  exact fun s _ => hreported s

/-! ## Keys -/

/-- A value lies where it was read, and its containers are within the limit. -/
structure ShallowValue (F : Frame π) (value : Grammar π (Option (Value (Span π)))) : Prop where
  reads : Reads F (Value.Within F.cover) value
  shallow : ∀ p, Ensures (State.At F p []) value fun v s =>
    Shallow F s.problems (Value.containers? (F.depth + 1) v)

/-- The containers of a key are within the limit. -/
def ShallowKey (F : Frame π) (k : Key (Span π)) (s : State π) : Prop :=
  Shallow F s.problems (Value.containers? (F.depth + 1) k.value)

theorem shallowKey_of_none {k : Key (Span π)} {s : State π} (h : k.value = none) :
    ShallowKey F k s := by
  rw [ShallowKey, h]
  exact shallow_nil

section

variable {value : Grammar π (Option (Value (Span π)))} (hvalue : ShallowValue F value)

include hvalue

theorem mapBehind_shallow (key : Key (Span π)) (scalar : Scalar (Span π)) (p : List Char) :
    Ensures (State.At F p []) (mapBehind value key scalar) (ShallowKey F) := by
  refine .peekOnLine (.pure fun _ _ => shallow_nil) fun b c _ => .ite ?_ fun _ =>
    .retreat (.pure fun _ _ => shallow_nil)
  rintro rfl
  exact .accept (.putBack (by decide) (.callShallow (hvalue.reads _) (hvalue.shallow _)
    fun _ _ _ _ => .pure fun _ _ h => h))

theorem valueOfKey_shallow (key : Key (Span π)) (p : List Char) :
    Ensures (State.At F p []) (valueOfKey value key) (ShallowKey F) := by
  refine .callShallow (hvalue.reads p) (hvalue.shallow p) fun v q _ _ => ?_
  match v with
  | none => exact .here (.reportAtColon (.pure fun _ _ _ => shallow_nil))
  | some (.scalar scalar) => exact (mapBehind_shallow hvalue key scalar q).weaken fun _ _ h _ => h
  | some (.sequence s) => exact .pure fun _ _ h => h
  | some (.map m) => exact .pure fun _ _ h => h

theorem keyValue_shallow (key : Key (Span π)) (hkey : key.value = none) (p : List Char) :
    Ensures (State.At F p []) (keyValue value key) (ShallowKey F) := by
  have hdone : ∀ q, Ensures (State.At F q []) (pure key) (ShallowKey F) :=
    fun _ => .pure fun _ _ => shallowKey_of_none hkey
  refine .peekOnLine (hdone p) fun b c _ => .ite (fun _ => ?_) fun _ =>
    .ite (fun _ => ?_) fun _ => ?_
  · exact .retreat (.ite (fun _ => valueOfKey_shallow hvalue key p) fun _ => hdone p)
  · exact .accept (.whenever (fun _ => .reportToHere_stays) (valueOfKey_shallow hvalue key _))
  · exact .retreat (hdone p)

end

/-- A remark holds no containers. -/
theorem Remark.containers_toEntry {ρ : Type} (level : Nat) (r : Option (Remark ρ)) :
    Entry.containersAll level (r.map Remark.toEntry).toList = [] := by
  cases r with
  | none => rfl
  | some r => cases r <;> rfl

theorem Remark.containers_toItem {ρ : Type} (level : Nat) (r : Option (Remark ρ)) :
    Item.containersAll level (r.map Remark.toItem).toList = [] := by
  cases r with
  | none => rfl
  | some r => cases r <;> rfl

section

variable {value : Grammar π (Option (Value (Span π)))} (hgroup : F.inGroup = false)
  (hvalue : ShallowValue F value)

include hgroup hvalue

/-- What a key without a value is read on by: its containers come to be within the limit. -/
def ShallowParts (F : Frame π) (g : Key (Span π) → Grammar π (Key (Span π))) : Prop :=
  ∀ n key p, n ≤ p.length → key.PartsWithin F.cover n p.length → key.value = none →
    Ensures (State.At F p []) (g key) (ShallowKey F)

theorem edgeGroup_shallow : ShallowParts F (edgeGroup value) := by
  intro n key p hn hparts hkey
  have hread : Ensures (State.At (F.grouped true) p []) (groupParts key)
      (Onward (F.grouped true) p.length fun r _ => r.1.value = none) := by
    intro s hs
    obtain ⟨q, hq, hat, -⟩ := groupParts_reads (F := F.grouped true) hn hparts s hs
    obtain ⟨edges, edgeIndex, edgePath, heq⟩ := groupParts_eq key s
    exact ⟨q, hq, hat, (congrArg Key.value heq).trans hkey⟩
  refine .setGroup (.call hread fun r q _ hr => .setGroup ?_)
  rw [Frame.grouped_grouped hgroup]
  exact .ite (fun _ => keyValue_shallow hvalue r.1 hr q) fun _ =>
    .pure fun _ _ => shallowKey_of_none hr

theorem keyBehindPath_shallow : ShallowParts F (keyBehindPath value) := by
  intro n key p hn hparts hkey
  refine .peekOnLine (.pure fun _ _ => shallowKey_of_none hkey) fun b c _ =>
    .ite (fun _ => .accept ?_) fun _ => .ite (fun _ => .retreat ?_) fun _ => .retreat ?_
  · exact edgeGroup_shallow hgroup hvalue n key _ (by simp; omega)
      (hparts.mono (by simp; omega)) hkey
  · exact .call (edges_reads hn hparts.1) fun edges q _ _ =>
      keyValue_shallow hvalue { key with path := none, edges } hkey q
  · exact keyValue_shallow hvalue key hkey p

theorem keyBehindAmpersand_shallow : ShallowParts F (keyBehindAmpersand value) := by
  intro n key p hn hparts hkey
  refine .peek (.pure fun _ _ => shallowKey_of_none hkey) fun c =>
    .ite (fun _ => .accept ?_) fun _ => .retreat ?_
  · exact edgeGroup_shallow hgroup hvalue n key (c :: p) (by simp; omega)
      (hparts.mono (Nat.le_succ p.length)) hkey
  · refine .call (path_reads p) fun path q hq hpath => ?_
    exact keyBehindPath_shallow hgroup hvalue n _ q (by omega) (hparts.behindPath hn hq hpath) hkey

theorem keyParts_shallow : ShallowParts F (keyParts value) := by
  intro n key p hn hparts hkey
  refine .peek (.pure fun _ _ => shallowKey_of_none hkey) fun c =>
    .ite (fun _ => .accept ?_) fun _ => .retreat ?_
  · exact keyBehindAmpersand_shallow hgroup hvalue n _ (c :: p) (by simp; omega)
      (hparts.mono (Nat.le_succ p.length)) hkey
  · exact keyBehindAmpersand_shallow hgroup hvalue n key p hn hparts hkey

/-- What a key is as an entry of a map. -/
theorem key_shallow (p : List Char) :
    Ensures (State.At F p []) (key value) fun k s =>
      Shallow F s.problems (Entry.containersAll (F.depth + 1) (k.map Entry.key).toList) := by
  refine .here (.bind (keyParts_shallow hgroup hvalue _ _ p (Nat.le_refl _) (.empty _) rfl)
    fun k => ?_)
  have hend : ∀ stop, Ensures (ShallowKey F k)
      (if k.isNamed then pure (some { k with range := ⟨F.mark p.length, stop⟩ }) else pure none)
      fun k s => Shallow F s.problems
        (Entry.containersAll (F.depth + 1) (k.map Entry.key).toList) := by
    refine fun stop => .ite (fun _ => .pure fun s h => ?_) fun _ => .pure fun _ _ => shallow_nil
    rw [Option.map_some, Option.toList_some, Entry.containersAll, Entry.containers,
      Key.containers_eq]
    exact shallow_append.mpr ⟨h, shallow_nil⟩
  exact fun s hs => hend _ s hs

/-! ## Maps and sequences -/

theorem entry_shallow {c : Char} (hc : isBlank c = false) (p : List Char) :
    Ensures (State.At F (c :: p) []) (entry value c) fun e s =>
      Shallow F s.problems (Entry.containersAll (F.depth + 1) e.toList) := by
  refine .nodeStart hc (fun r q _ _ => .pure fun s _ => ?_) fun _ => ?_
  · rw [Remark.containers_toEntry]
    exact shallow_nil
  · exact .bind (key_shallow hgroup hvalue p) fun k => .pure fun _ h => h

omit hgroup in
theorem item_shallow {c : Char} (hc : isBlank c = false) (p : List Char) :
    Ensures (State.At F (c :: p) []) (item value c) fun x s =>
      Shallow F s.problems (Item.containersAll (F.depth + 1) x.toList) := by
  refine .nodeStart hc (fun r q _ _ => .pure fun s _ => ?_) fun _ => ?_
  · rw [Remark.containers_toItem]
    exact shallow_nil
  · refine .callShallow (hvalue.reads p) (hvalue.shallow p) fun v q _ _ => ?_
    cases v with
    | some v => exact .pure fun _ _ h => shallow_append.mpr ⟨h, shallow_nil⟩
    | none =>
      refine .here (.read (.reportToHere ?_) fun _ => .reportToHere ?_)
      · exact .pure fun _ _ _ => shallow_nil
      · exact .pure fun _ _ _ => shallow_nil

variable [DecidableEq π]

theorem entryLine_shallow (entries : List (Entry (Span π))) {c : Char} (hc : isBlank c = false)
    (p : List Char) :
    Ensures (State.At F (c :: p) []) (entryLine value entries c) fun next s =>
      Shallow F s.problems (Entry.containersAll (F.depth + 1) entries) →
        Shallow F s.problems (Entry.containersAll (F.depth + 1) next.gathered) := by
  refine .callShallow (entry_reads hgroup hvalue.reads hc p) (entry_shallow hgroup hvalue hc p)
    fun e q _ _ => ?_
  split
  · exact .pure fun _ _ h hentries => hentries
  · refine .call (trailingText_reads _ _ _ q) fun _ _ _ _ => .pure fun s _ h hentries => ?_
    rw [Next.gathered, Entry.containersAll_append]
    exact shallow_append.mpr ⟨h, hentries⟩

theorem mapStep_shallow (opened : Option π) (entries : List (Entry (Span π))) (p : List Char) :
    Ensures (State.At F p []) (mapStep value opened entries) fun next s =>
      Shallow F s.problems (Entry.containersAll (F.depth + 1) entries) →
        Shallow F s.problems (Entry.containersAll (F.depth + 1) next.gathered) := by
  refine .readVisible (fun _ => ?_) fun b c hc => .ite (fun _ => .pure fun _ _ h => h) fun _ =>
    .ite (fun hclosing => ?_) fun _ => entryLine_shallow hgroup hvalue entries hc (b ++ p)
  · cases opened with
    | none => exact .pure fun _ _ h => h
    | some start => exact .reportToReach (.pure fun _ _ h => h)
  · subst hclosing
    refine .ite (fun _ => .pure fun _ _ h => h) fun _ => ?_
    rw [reportStrayMapEnd, bind_assoc]
    exact .placeOf (by decide) (.reportToHere (.pure fun _ _ h => h))

omit hgroup in
theorem itemLine_shallow (items : List (Item (Span π))) {c : Char} (hc : isBlank c = false)
    (p : List Char) :
    Ensures (State.At F (c :: p) []) (itemLine value items c) fun next s =>
      Shallow F s.problems (Item.containersAll (F.depth + 1) items) →
        Shallow F s.problems (Item.containersAll (F.depth + 1) next.gathered) := by
  refine .callShallow (item_reads hvalue.reads hc p) (item_shallow hvalue hc p) fun x q _ _ => ?_
  split
  · exact .pure fun _ _ h hitems => hitems
  · refine .call (trailingText_reads _ _ _ q) fun _ _ _ _ => .pure fun s _ h hitems => ?_
    rw [Next.gathered, Item.containersAll_append]
    exact shallow_append.mpr ⟨h, hitems⟩

omit hgroup in
theorem sequenceStep_shallow (start : π) (items : List (Item (Span π))) (p : List Char) :
    Ensures (State.At F p []) (sequenceStep value start items) fun next s =>
      Shallow F s.problems (Item.containersAll (F.depth + 1) items) →
        Shallow F s.problems (Item.containersAll (F.depth + 1) next.gathered) := by
  refine .readVisible (fun _ => .reportToReach (.pure fun _ _ h => h)) fun b c hc =>
    .ite (fun _ => .pure fun _ _ h => h) fun _ => .ite (fun _ => .pure fun _ _ h => h) fun _ =>
      itemLine_shallow hvalue items hc (b ++ p)

end

/-- What is gathered step by step is within the limit. -/
theorem repeating_shallow {step : σ → Grammar π (Next σ)} {I R : σ → Nat → Prop}
    {g : σ} {p : List Char} (cs : σ → List (Container (Span π)))
    (hreads : ∀ g p, I g p.length →
      Ensures (State.At F p []) (step g) (Steps F p.length I R))
    (hstep : ∀ g p, Ensures (State.At F p []) (step g) fun next s =>
      Shallow F s.problems (cs g) → Shallow F s.problems (cs next.gathered))
    (hg : I g p.length) (hcs : cs g = []) :
    Ensures (State.At F p []) (repeating step g) fun g' s => Shallow F s.problems (cs g') :=
  repeating_lasting (J := fun g xs => Shallow F xs (cs g)) (fun g => Shallow.lasting (cs g)) hreads
    (fun g q _ => hstep g q) hg fun _ => hcs ▸ shallow_nil

/-- A container that is not at the limit is within it if its children are. -/
theorem shallow_cons {problems : List (Problem π)} {range : Span π} {size : Nat}
    {cs : List (Container (Span π))} (hdepth : F.depth < F.limit)
    (h : Shallow F.deeper problems cs) :
    Shallow F problems (⟨F.depth + 1, range, size⟩ :: cs) := by
  have hne : F.depth + 1 ≠ F.limit + 1 := by omega
  refine List.forall_mem_cons.mpr ⟨⟨?_, fun heq => absurd heq hne, fun heq => absurd heq hne⟩, ?_⟩
  · show F.depth + 1 ≤ F.limit + 1
    omega
  · intro c hc
    obtain ⟨hle, hempty, hreported⟩ := h c hc
    exact ⟨hle, hempty, hreported⟩

/-- A container at the limit is empty and reported. -/
theorem shallow_skipped {problems : List (Problem π)} {range : Span π} (hdepth : F.depth ≤ F.limit)
    (h : ∃ x ∈ problems, x.cause = .nestingTooDeep ∧ x.start = .place range.start) :
    Shallow F problems [⟨F.depth + 1, range, 0⟩] :=
  List.forall_mem_singleton.mpr ⟨Nat.succ_le_succ hdepth, fun _ => rfl, fun _ => h⟩

/-- The order of the children does not matter. -/
theorem shallow_reverse_entries {problems : List (Problem π)} {level : Nat}
    {entries : List (Entry (Span π))} :
    Shallow F problems (Entry.containersAll level entries.reverse) ↔
      Shallow F problems (Entry.containersAll level entries) := by
  simp only [Shallow, Entry.containersAll_eq, List.mem_flatMap, List.mem_reverse]

theorem shallow_reverse_items {problems : List (Problem π)} {level : Nat}
    {items : List (Item (Span π))} :
    Shallow F problems (Item.containersAll level items.reverse) ↔
      Shallow F problems (Item.containersAll level items) := by
  simp only [Shallow, Item.containersAll_eq, List.mem_flatMap, List.mem_reverse]

section

variable {value : Grammar π (Option (Value (Span π)))} [DecidableEq π]

/-- **Maps**: the containers of a map are within the limit. -/
theorem map_shallow (hdepth : F.depth ≤ F.limit) (hgroup : F.inGroup = false)
    (hvalue : F.depth < F.limit → ShallowValue F.deeper value) (p : List Char) :
    Ensures (State.At F ('{' :: p) []) (map value) fun m s =>
      Shallow F s.problems (m.containers (F.depth + 1)) := by
  refine .outsideGroup hgroup (.placeOf (by decide) (.atLimit (.ite (fun _ => ?_) fun hroom => ?_)))
  · exact .bind (skipContainer_reported _ _ _ _ _) fun _ s h => shallow_skipped hdepth h
  · have hroom : F.depth < F.limit := by simpa using hroom
    have hinner := hvalue hroom
    have hreads := fun start entries (q : List Char)
        (h : EntriesWithin F.deeper p.length entries q.length) =>
      mapStep_reads (F := F.deeper) hgroup hinner.reads (some start) h
    refine .nestedShallow (repeating_ensures (hreads _) (Nat.le_succ p.length))
      (repeating_shallow (Entry.containersAll (F.deeper.depth + 1)) (hreads _)
        (mapStep_shallow (F := F.deeper) hgroup hinner _) (Nat.le_succ p.length) rfl)
      fun entries q _ => ?_
    exact .here (.pure fun s _ h => shallow_cons hroom (shallow_reverse_entries.mpr h))

/-- **Sequences**: the containers of a sequence are within the limit. -/
theorem sequence_shallow (hdepth : F.depth ≤ F.limit)
    (hvalue : F.depth < F.limit → ShallowValue F.deeper value) (p : List Char) :
    Ensures (State.At F ('[' :: p) []) (sequence value) fun x s =>
      Shallow F s.problems (x.containers (F.depth + 1)) := by
  refine .placeOf (by decide) (.atLimit (.ite (fun _ => ?_) fun hroom => ?_))
  · exact .bind (skipContainer_reported _ _ _ _ _) fun _ s h => shallow_skipped hdepth h
  · have hroom : F.depth < F.limit := by simpa using hroom
    have hinner := hvalue hroom
    have hreads := fun start items (q : List Char)
        (h : ItemsWithin F.deeper p.length items q.length) =>
      sequenceStep_reads (F := F.deeper) hinner.reads start h
    refine .nestedShallow (repeating_ensures (hreads _) (Nat.le_succ p.length))
      (repeating_shallow (Item.containersAll (F.deeper.depth + 1)) (hreads _)
        (sequenceStep_shallow (F := F.deeper) hinner _) (Nat.le_succ p.length) rfl)
      fun items q _ => ?_
    exact .here (.pure fun s _ h => shallow_cons hroom (shallow_reverse_items.mpr h))

/-! ## Values -/

theorem valueFrom_shallow {inner : Grammar π (Option (Value (Span π)))} (hdepth : F.depth ≤ F.limit)
    (hgroup : F.inGroup = false) (hinner : F.depth < F.limit → ShallowValue F.deeper inner)
    {c : Char} (hc : isBlank c = false) (p : List Char) :
    Ensures (State.At F (c :: p) []) (valueFrom inner c) fun v s =>
      Shallow F s.problems (Value.containers? (F.depth + 1) v) := by
  refine .ite ?_ fun _ => .ite ?_ fun _ => .putBack (ne_newline_of_visible hc) ?_
  · rintro rfl
    exact .bind (sequence_shallow hdepth hinner p) fun _ _ h => h
  · rintro rfl
    exact .bind (map_shallow hdepth hgroup hinner p) fun _ _ h => h
  · refine .call (valueText_reads p) fun t _ _ _ => .pure fun _ _ => ?_
    cases t <;> exact shallow_nil

/-- **Values**: with room for all the containers that may be entered, the containers of a value are
within the limit. -/
theorem valueWithin_shallow (room : Nat) (hdepth : F.depth ≤ F.limit) (hgroup : F.inGroup = false)
    (hroom : F.limit ≤ F.depth + room) : ShallowValue F (valueWithin (room + 1)) := by
  induction room generalizing F with
  | zero =>
    refine ⟨valueWithin_reads 0 hgroup hroom, fun p => .outsideGroup hgroup
      (.peekOnLine (.pure fun _ _ => shallow_nil) fun b c hc => .accept ?_)⟩
    exact valueFrom_shallow hdepth hgroup (fun h => absurd h (by omega)) hc _
  | succ room ih =>
    refine ⟨valueWithin_reads (room + 1) hgroup hroom, fun p => .outsideGroup hgroup
      (.peekOnLine (.pure fun _ _ => shallow_nil) fun b c hc => .accept ?_)⟩
    refine valueFrom_shallow hdepth hgroup (fun h => ih (F := F.deeper) h hgroup ?_) hc _
    simp only [Frame.deeper]
    omega

/-- The map of a whole file stands on the level of the run, and its entries one level deeper. -/
theorem fileMap_shallow (hgroup : F.inGroup = false) (hvalue : ShallowValue F value)
    (p : List Char) :
    Ensures (State.At F p []) (fileMap value) fun m s =>
      Shallow F s.problems (Entry.containersAll (F.depth + 1) m.entries) := by
  have hreads := fun entries (q : List Char) (h : EntriesWithin F p.length entries q.length) =>
    mapStep_reads hgroup hvalue.reads none h
  refine .outsideGroup hgroup (.here (.callShallow (repeating_ensures hreads (Nat.le_refl _))
    (repeating_shallow (Entry.containersAll (F.depth + 1)) hreads
      (mapStep_shallow hgroup hvalue none) (Nat.le_refl _) rfl) fun entries q _ _ => ?_))
  exact .here (.pure fun s _ h => shallow_reverse_entries.mpr h)

end

theorem value_shallow [DecidableEq π] (hdepth : F.depth ≤ F.limit) (hgroup : F.inGroup = false) :
    ShallowValue F value := by
  refine ⟨value_reads hgroup, fun p s hs => ?_⟩
  have h := (valueWithin_shallow F.limit hdepth hgroup (Nat.le_add_left _ _)).shallow p s hs
  rwa [← hs.limit] at h

end Grammar

/-! ## Whole files -/

/-- The tree of a source is within the limit, with the map of the file on the level 0. -/
theorem readFile_shallow {π : Type} [DecidableEq π] {meter : Meter π} (lawful : meter.Lawful)
    (source : List Delivery) (limit : Nat) :
    Grammar.Shallow (.ofSource meter lawful source limit) (readFile meter source limit).2.problems
      ((readFile meter source limit).1.containers 0) := by
  have hvalue := Grammar.value_shallow (F := .ofSource meter lawful source limit)
    (Nat.zero_le _) rfl
  have hentries := Grammar.fileMap_shallow rfl hvalue [] _ (State.ofSource_at lawful source limit)
  refine List.forall_mem_cons.mpr ⟨⟨Nat.zero_le _, fun h => ?_, fun h => ?_⟩, hentries⟩
  · exact absurd h (Nat.succ_ne_zero _).symm
  · exact absurd h (Nat.succ_ne_zero _).symm

/-- **The limit bounds the tree**: no map or sequence is deeper than one level beyond the limit. One
that is so deep holds nothing, and is reported where it starts. -/
theorem parse_depth_bounded (label : String) (source : List Delivery) (options : Options) :
    let output := parse label source options
    ∀ c ∈ output.map.containers 0, c.level ≤ options.maxDepth + 1 ∧
      (c.level = options.maxDepth + 1 → c.size = 0 ∧
        ∃ d ∈ output.diagnostics, d.code.name = "E006" ∧ d.range.start = c.range.start) := by
  intro output c hc
  have hshallow := readFile_shallow options.counting.meter_lawful source options.maxDepth
  have hcontainers : output.map.containers 0 =
      ((readFile options.counting.meter source options.maxDepth).1.containers 0).map
        (Container.mapMark (Span.toRange label)) := Map.containers_mapMarks _ 0 _
  rw [hcontainers] at hc
  obtain ⟨b, hb, rfl⟩ := List.mem_map.mp hc
  obtain ⟨hle, hempty, hreported⟩ := hshallow b hb
  refine ⟨hle, fun hlevel => ⟨hempty hlevel, ?_⟩⟩
  obtain ⟨x, hx, hcause, hstart⟩ := hreported hlevel
  refine ⟨x.toDiagnostic label options.counting,
    List.mem_map_of_mem (List.mem_reverse.mpr hx), ?_, ?_⟩
  · show x.cause.code.name = "E006"
    rw [hcause]
    rfl
  · show x.start.resolve options.counting.meter = b.range.start
    rw [hstart]
    rfl

/-- A sequence in a map, one level beyond the limit. -/
theorem parse_depth_bounded_sequence :
    let output := parse "" (deliveries "a: \x7bb: [c]\x7d".toList) { maxDepth := 1 }
    ∃ c ∈ output.map.containers 0, c.level = 2 ∧ c.size = 0 ∧
      ∃ d ∈ output.diagnostics, d.code.name = "E006" ∧ d.range.start = c.range.start := by
  intro output
  have hdeep : ∃ c ∈ output.map.containers 0, c.level = 2 := by decide +kernel
  obtain ⟨c, hc, hlevel⟩ := hdeep
  obtain ⟨-, hbounded⟩ := parse_depth_bounded "" _ { maxDepth := 1 } c hc
  exact ⟨c, hc, hlevel, hbounded hlevel⟩

end Diagram
