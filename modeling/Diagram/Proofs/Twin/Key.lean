import Diagram.Proofs.Marks
import Diagram.Proofs.Sound.Container
import Diagram.Proofs.Twin.Edge
import Diagram.Proofs.Twin.Rendering

/-!
Scalars, keys and what follows a node in two runs side by side. The values of keys may come out in
another form, in which the second run notices problems of its own. What the first run leaves of a
key at the end of its text is found behind the node and reported there.
-/
namespace Diagram.Grammar

variable {π : Type} {K : Pairing π} {p : List Char}

/-! ## Containers that are nested too deep -/

theorem skipCharacter_alike (htail : K.tail = []) (opening closing : Char) {nesting : Nat}
    (p : List Char) (h : 0 < nesting) :
    Alike K (Twin K p []) (skipCharacter opening closing nesting)
      (skipCharacter opening closing nesting) Never (Meets K (Next.map id)) := by
  refine .read (fun _ => .done rfl) (fun h => absurd htail h) fun c =>
    .ite Iff.rfl (fun _ => .done rfl) fun _ => .ite Iff.rfl (fun _ => ?_) fun _ => .done rfl
  refine .whenever (fun h0 => absurd (of_decide_eq_true h0) (by omega)) fun _ => .done ?_
  split <;> rfl

theorem skipContainer_alike (start : Nat) (opening closing : Char) (unterminated : Cause)
    (p : List Char) :
    Alike K (Twin K p []) (skipContainer start opening closing unterminated)
      (skipContainer (K.place start) opening closing unterminated) Never (Meets K id) := by
  refine .noteSkip (.reportToHere fun htail => .call (repeating_alike_never (f := id)
    (I := fun nesting _ => 0 < nesting) Nat.one_pos
    (fun _ p h => skipCharacter_reads opening closing p h)
    fun _ p h => skipCharacter_alike htail opening closing p h) fun nesting q => ?_)
  exact .last (.whenever (fun _ => .reportToReach fun _ => .done rfl) fun _ => .done rfl)

/-- Skipping a container may void the comparison. -/
theorem skipContainer_astray {β : Type} {E : β → State Nat → Prop} {f : Unit → Grammar Nat β}
    {P : State Nat → Prop} (hvoid : K.voids .nestingTooDeep) (start : Nat) (opening closing : Char)
    (unterminated : Cause) :
    Ensures P (skipContainer start opening closing unterminated >>= f) (K.Astray E) := by
  simp only [skipContainer, reportToHere, bind_assoc]
  refine .bind (R := fun _ _ => True) (fun _ _ => trivial) fun _ => ?_
  refine .bind (R := fun _ _ => True) (fun _ _ => trivial) fun _ => ?_
  exact .astray_void hvoid

/-! ## What follows a node -/

theorem trailingCharacter_alike (closing : Char) (u : Unit) (p : List Char) :
    Alike K (Twin K p []) (trailingCharacter closing u) (trailingCharacter closing u) Never
      (Meets K (Next.map id)) := by
  refine .peekOnLine (.done rfl) fun b c _ => .ite Iff.rfl (fun _ => ?_) fun _ => ?_
  · exact .accept (.done rfl)
  · exact .retreat (.done rfl)

/-- Both runs find text behind a node, or neither does: places differ where indexes do. -/
theorem trailingText_alike [DecidableEq π] (typeName : Option String) (closing : Char)
    (fallback : Cause) (p : List Char) :
    Alike K (Twin K p []) (trailingText typeName closing fallback)
      (trailingText typeName closing fallback) Never (Meets K id) := by
  refine .here (.bounded fun hp => .call (repeating_alike_never (f := id) trivial
    (fun u p _ => trailingCharacter_reads closing u p)
    fun u p _ => trailingCharacter_alike closing u p) fun _ q => .here (.bounded fun hq => ?_))
  have hsame : (K.place p.length != K.place q.length) = (p.length != q.length) := by
    rw [Bool.eq_iff_iff, bne_iff_ne, bne_iff_ne, ne_eq, ne_eq, K.place_inj (by omega) (by omega)]
  rw [hsame]
  exact .last (.whenever (fun _ => .report fun _ => .done rfl) fun _ => .done rfl)

/-- Text is left behind a node, of which the first run has read nothing. -/
def LeavesText (K : Pairing π) (closing : Char) (s : State Nat) : Prop :=
  ∃ q, s.At K.first q [] ∧ StartsText K.first closing q.length

/-- Text that is left behind a node is reported. -/
theorem trailingText_astray (htail : K.tail ≠ []) (typeName : Option String) (closing : Char)
    (fallback : Cause) :
    Ensures (LeavesText K closing) (trailingText typeName closing fallback) (K.Astray Never) := by
  rintro s ⟨q, hs, hstarts⟩
  have hread : Ensures (State.At K.first q []) (repeating (trailingCharacter closing) ())
      (Onward K.first q.length fun _ j => ¬StartsText K.first closing j) :=
    repeating_ensures (fun u p _ => trailingCharacter_reads closing u p) trivial
  refine Ensures.here (.call hread fun _ q' hq' hnot => .here fun s' hs' => ?_) s hs
  have hlt : q.length < q'.length := by
    rcases Nat.eq_or_lt_of_le hq' with heq | hlt
    · rw [← heq] at hnot
      exact absurd hstarts hnot
    · exact hlt
  have hne : (K.first.mark q.length != K.first.mark q'.length) = true :=
    bne_iff_ne.mpr (Tape.mark_ne hlt (by simpa using hs'.reader.length_le))
  rw [hne]
  exact Ensures.astray_report (f := pure) (P := State.At K.first q' []) htail s' hs'

/-- Where only blanks are left, there is no text behind a node. -/
theorem trailingText_spent (typeName : Option String) (closing : Char) (fallback : Cause) :
    Ensures K.Spent (trailingText typeName closing fallback) fun _ => K.Spent := by
  refine .spent fun q hblank =>
    .here (.bind (R := fun _ => State.At K.first q []) ?_ fun _ => .here ?_)
  · exact .repeating_once (.peekOnLineBlank hblank (.pure fun s hs => ⟨(), rfl, hs⟩))
  · rw [bne_self_eq_false]
    exact .pure fun s hs => ⟨q, hs, hblank⟩

/-! ## Keys -/

/-- The values inside a container are read alike up to their form, whatever the second run has
noticed before, and one that starts with a brace is read. The second run notices no problems of its
own in values, or the comparison is void where a value is dropped. -/
structure ValueTwins (φ : Rendering π) (K : Pairing π)
    (value₁ : Grammar Nat (Option (Value (Span Nat))))
    (value₂ : Grammar π (Option (Value (Span π)))) : Prop where
  alike : ∀ problems p, Alike (K.noting problems) (Twin (K.noting problems) p [])
    value₁ value₂ Never (Notes (K.noting problems) (Option.map (φ.value K.place)) φ.valueNotes?)
  reads : Reads K.first (Value.Within K.first.cover) value₁
  opens : ∀ p, K.first.OnLine p.length '{' →
    Ensures (State.At K.first p []) value₁ fun r _ => r.isSome = true
  dropped : K.voids .valueWithoutKey ∨ ∀ v, φ.valueNotes? v = []

section

variable {φ : Rendering π} {value₁ : Grammar Nat (Option (Value (Span Nat)))}
  {value₂ : Grammar π (Option (Value (Span π)))}

/-- It does not matter what the second run has noticed before. -/
theorem ValueTwins.noting (h : ValueTwins φ K value₁ value₂) (problems : List (Problem π)) :
    ValueTwins φ (K.noting problems) value₁ value₂ where
  alike problems' := by
    rw [Pairing.noting_noting]
    exact h.alike (problems' ++ problems)
  reads := h.reads
  opens := h.opens
  dropped := h.dropped

theorem ValueTwins.value_alike (h : ValueTwins φ K value₁ value₂) (p : List Char) :
    Alike K (Twin K p []) value₁ value₂ Never
      (Notes K (Option.map (φ.value K.place)) φ.valueNotes?) :=
  h.alike [] p

theorem mapBehind_alike (hvalue : ValueTwins φ K value₁ value₂) (key : Key (Span Nat))
    (hnamed : key.isNamed = true ∨ ∀ v, φ.valueNotes? v = []) (scalar : Scalar (Span Nat))
    (p : List Char) :
    Alike K (Twin K p []) (mapBehind value₁ key scalar)
      (mapBehind value₂ (key.mapMarks (Span.map K.place)) (scalar.mapMarks (Span.map K.place)))
      Never (Notes K (φ.key K.place) φ.keyNotes) := by
  have hscalar : φ.keyNotes { key with value := some (.scalar scalar) } = [] :=
    φ.keyNotes_of_named hnamed
  refine .peekOnLine (.doneBare ?_ hscalar) fun b c _ => .ite Iff.rfl (fun _ => ?_) fun _ =>
    .retreat (.doneBare ?_ hscalar)
  · simp only [Rendering.key, Key.mapMarks_eq, Option.map_some, Rendering.value]
  · rename_i hc
    subst hc
    have hmap : ∀ v, φ.keyNotes { key with primary := some scalar, value := v } =
        φ.valueNotes? v := fun _ => φ.keyNotes_of_named hnamed
    refine .accept (.putBack (by decide) (.callNotes (hvalue.value_alike _) fun v q =>
      .doneNotes ?_ (hmap v).symm))
    simp only [Rendering.key, Key.mapMarks_eq, Option.map_some]
  · simp only [Rendering.key, Key.mapMarks_eq, Option.map_some, Rendering.value]

/-- A value that is missing is missing behind a colon. -/
theorem valueOfKey_alike (hvalue : ValueTwins φ K value₁ value₂) (key : Key (Span Nat))
    (hnamed : key.isNamed = true ∨ ∀ v, φ.valueNotes? v = [])
    (hcolon : 0 < p.length ∨ K.first.OnLine p.length '{') :
    Alike K (Twin K p []) (valueOfKey value₁ key)
      (valueOfKey value₂ (key.mapMarks (Span.map K.place))) Never
      (Notes K (φ.key K.place) φ.keyNotes) := by
  have hreads : Ensures (State.At K.first p []) value₁
      (Onward K.first p.length fun r j => r = none → 0 < j) := by
    intro s hs
    obtain ⟨q, hq, hs', -⟩ := hvalue.reads p s hs
    refine ⟨q, hq, hs', fun hnone => ?_⟩
    rcases hcolon with hpos | hopen
    · omega
    · have hsome := hvalue.opens p hopen s hs
      rw [hnone] at hsome
      cases hsome
  refine .callNotesReads (hvalue.value_alike p) hreads (fun _ _ _ h => h.elim) fun v q hq hv => ?_
  have hnotes : ∀ v, φ.keyNotes { key with value := v } = φ.valueNotes? v :=
    fun _ => φ.keyNotes_of_named hnamed
  match v with
  | none =>
    refine .here (.bounded fun hle => .reportAtColon (hv rfl) (by omega) fun _ =>
      .doneNotes ?_ (hnotes none).symm)
    simp only [Rendering.key, Key.mapMarks_eq, Option.map_none]
  | some (.scalar scalar) => exact mapBehind_alike hvalue key hnamed scalar q
  | some (.sequence s) =>
    refine .doneNotes ?_ (hnotes _).symm
    simp only [Rendering.key, Key.mapMarks_eq, Option.map_some, Rendering.value]
  | some (.map m) =>
    refine .doneNotes ?_ (hnotes _).symm
    simp only [Rendering.key, Key.mapMarks_eq, Option.map_some, Rendering.value]

theorem keyValue_alike (hvalue : ValueTwins φ K value₁ value₂) (key : Key (Span Nat))
    (hnone : key.value = none) (p : List Char) :
    Alike K (Twin K p []) (keyValue value₁ key)
      (keyValue value₂ (key.mapMarks (Span.map K.place))) Never
      (Notes K (φ.key K.place) φ.keyNotes) := by
  have hrange : (key.mapMarks (Span.map K.place)).range.start = K.place key.range.start := by
    rw [Key.mapMarks_eq]
    rfl
  have hbare := (φ.key_of_none K.place hnone).symm
  have hnotes := φ.keyNotes_of_none hnone
  refine .peekOnLineFound (.doneBare hbare hnotes) fun b c hfound =>
    .ite Iff.rfl ?_ fun _ => .ite Iff.rfl (fun _ => ?_) fun _ => .retreat (.doneBare hbare hnotes)
  · rintro rfl
    rw [Key.isNamed_mapMarks]
    refine .retreat (.ite Iff.rfl (fun hnamed => ?_) fun _ => .doneBare hbare hnotes)
    exact valueOfKey_alike hvalue key (.inl hnamed) (.inr hfound)
  · rw [Key.isNamed_mapMarks, hrange]
    have hbehind := fun q hnamed =>
      valueOfKey_alike (p := c :: q) hvalue key hnamed (.inl (Nat.succ_pos _))
    refine .accept (.whenever (fun _ => ?_) fun hnamed => hbehind _ (.inl (by simpa using hnamed)))
    rcases hvalue.dropped with hvoid | hnone
    · exact .voidToHere hvoid
    · exact .reportToHere fun _ => hbehind _ (.inr hnone)

/-- A dash or a star behind a key is no value. -/
theorem keyValue_astray (htail : K.tail ≠ []) (key : Key (Span Nat)) :
    Ensures (Stranded K) (keyValue value₁ key) (K.Astray fun _ => Stranded K) := by
  refine .stranded fun q c hc hvisible hrest hknown => .peekOnLineKnown hknown hvisible ?_
  refine .ite (fun h => ?_) fun _ => .ite (fun h => ?_) fun _ => .retreat ?_
  · rcases hc with rfl | rfl <;> cases h
  · rcases hc with rfl | rfl <;> cases h
  · exact .astray_pure htail fun s hs => ⟨q, c, hs, hrest, hc⟩

end

/-! ### Edge groups -/

theorem Alike.acceptBehind {β₁ β₂ : Type} {E : β₁ → State Nat → Prop}
    {Q : β₁ → β₂ → State Nat → State π → Prop} {c : Char} {f₁ : Behind → Grammar Nat β₁}
    {f₂ : Behind → Grammar π β₂}
    (hfound : ∀ q, Alike K (Twin K (c :: q) []) (f₁ .found) (f₂ .found) E Q)
    (hother : Alike K (Twin K p []) (f₁ .other) (f₂ .other) E Q)
    (hlineEnd : Alike K (Twin K p []) (f₁ .lineEnd) (f₂ .lineEnd) E Q) :
    Alike K (Twin K p []) (acceptBehind c >>= f₁) (acceptBehind c >>= f₂) E Q := by
  simp only [Grammar.acceptBehind, bind_assoc]
  refine .peekOnLine hlineEnd fun b x _ => ?_
  by_cases hx : x = c
  · subst hx
    simpa using Alike.accept (l := x :: b) (hfound (b ++ p))
  · simpa [hx] using Alike.retreat (l := x :: b) hother

/-- What is left behind an edge group may be taken for its value. -/
def GroupStrands (K : Pairing π) (r : Key (Span Nat) × Bool) (s : State Nat) : Prop :=
  r.2 = true ∧ Stranded K s

theorem groupPath_alike (key : Key (Span Nat)) (p : List Char) :
    Alike K (Twin K p []) (groupPath key) (groupPath (key.mapMarks (Span.map K.place)))
      (GroupStrands K) (Meets K (Prod.map (Key.mapMarks (Span.map K.place)) id)) := by
  refine .acceptBehind (fun q => ?_) (.done rfl) (.done rfl)
  refine .callStray (path_alike _) (fun htail path => ?_) fun path q => .done ?_
  · exact .astray_pure htail fun s hs => ⟨rfl, hs⟩
  · simp only [Prod.map, Key.mapMarks_eq, id]

theorem groupIndex_alike (key : Key (Span Nat)) (p : List Char) :
    Alike K (Twin K p []) (groupIndex key) (groupIndex (key.mapMarks (Span.map K.place)))
      (GroupStrands K) (Meets K (Prod.map (Key.mapMarks (Span.map K.place)) id)) := by
  refine .acceptBehind (fun q => ?_) (groupPath_alike key p) (.done rfl)
  refine .call (edgeIndex_alike q) fun edgeIndex q => ?_
  have h := groupPath_alike (K := K) { key with edgeIndex } q
  rw [Key.mapMarks_eq] at h ⊢
  exact h

/-- A dash or a star that is left starts an edge that ends nowhere. -/
theorem edges_astray (htail : K.tail ≠ []) (source : Option (KeyPath (Span Nat))) :
    Ensures (Stranded K) (edges source) (K.Astray Never) :=
  .astray (repeating_astray (nextEdge_astray htail _)) fun _ _ _ h => h.elim

theorem groupParts_alike (key : Key (Span Nat)) (p : List Char) :
    Alike K (Twin K p []) (groupParts key) (groupParts (key.mapMarks (Span.map K.place)))
      (GroupStrands K) (Meets K (Prod.map (Key.mapMarks (Span.map K.place)) id)) := by
  have hrange : (key.mapMarks (Span.map K.place)).range.start = K.place key.range.start := by
    rw [Key.mapMarks_eq]
    rfl
  refine .callReads (path_alike p) (path_reads p) (fun htail source => ?_)
    fun source q hq hsource => ?_
  · exact .astray (edges_astray htail source) fun _ _ _ h => h.elim
  refine .call (edges_alike hq hsource) fun edges q => ?_
  have hedges : { key.mapMarks (Span.map K.place) with
      edges := edges.map (Edge.mapMarks (Span.map K.place)) } =
      Key.mapMarks (Span.map K.place) { key with edges } := by
    simp only [Key.mapMarks_eq]
  dsimp only
  rw [hedges]
  refine .acceptBehind (fun q => groupIndex_alike _ _) ?_ ?_
  · rw [hrange]
    exact .reportToHere fun _ => .done rfl
  · rw [hrange]
    exact .reportToHere fun _ => .done rfl

section

variable {value₁ : Grammar Nat (Option (Value (Span Nat)))}
  {value₂ : Grammar π (Option (Value (Span π)))}

/-- Behind the parentheses, both runs are outside of the group again. -/
theorem edgeGroup_alike (hgroup : K.first.inGroup = false) (hvalue : ValueTwins φ K value₁ value₂)
    (key : Key (Span Nat)) (hnone : key.value = none) (p : List Char) :
    Alike K (Twin K p []) (edgeGroup value₁ key)
      (edgeGroup value₂ (key.mapMarks (Span.map K.place))) (fun _ => Stranded K)
      (Notes K (φ.key K.place) φ.keyNotes) := by
  have hparts : ∀ s : State Nat, (groupParts key s).1.1.value = none := by
    intro s
    obtain ⟨_, _, _, heq⟩ := groupParts_eq key s
    rw [heq]
    exact hnone
  refine .setGroup (.callKnown (R := fun r => r.1.value = none)
    (groupParts_alike (K := K.grouped true) key p) hparts (fun htail r => ?_)
    fun r q hr => .setGroup ?_)
  · obtain ⟨key', goesOn⟩ := r
    rintro s ⟨rfl, q, c, hs, hrest, hc⟩
    refine keyValue_astray (K := K) htail key' _
      ⟨q, c, ⟨hs.reader, hs.depth, hs.limit, ?_⟩, hrest, hc⟩
    exact hgroup.symm
  · rw [Pairing.grouped_grouped hgroup]
    obtain ⟨key', goesOn⟩ := r
    exact .ite Iff.rfl (fun _ => (keyValue_alike hvalue key' hr q).tail) fun _ =>
      .doneBare (φ.key_of_none K.place hr).symm (φ.keyNotes_of_none hr)

theorem keyBehindPath_alike (hgroup : K.first.inGroup = false)
    (hvalue : ValueTwins φ K value₁ value₂) {n : Nat} (key : Key (Span Nat))
    (hnone : key.value = none) (hn : n ≤ p.length)
    (hpath : ∀ x ∈ key.path, x.Within K.first.cover n p.length) :
    Alike K (Twin K p []) (keyBehindPath value₁ key)
      (keyBehindPath value₂ (key.mapMarks (Span.map K.place))) (fun _ => Stranded K)
      (Notes K (φ.key K.place) φ.keyNotes) := by
  have hbare := (φ.key_of_none K.place hnone).symm
  refine .peekOnLine (.doneBare hbare (φ.keyNotes_of_none hnone)) fun b c _ =>
    .ite Iff.rfl (fun _ => .accept (edgeGroup_alike hgroup hvalue key hnone _)) fun _ =>
    .ite Iff.rfl (fun _ => .retreat ?_) fun _ => .retreat (keyValue_alike hvalue key hnone p).tail
  have hsource : (key.mapMarks (Span.map K.place)).path =
      key.path.map (KeyPath.mapMarks (Span.map K.place)) := by
    rw [Key.mapMarks_eq]
  rw [hsource]
  refine .call (edges_alike hn hpath) fun edges q => ?_
  have hedges : { key.mapMarks (Span.map K.place) with
      path := none, edges := edges.map (Edge.mapMarks (Span.map K.place)) } =
      Key.mapMarks (Span.map K.place) { key with path := none, edges } := by
    simp only [Key.mapMarks_eq, Option.map_none]
  rw [hedges]
  exact (keyValue_alike hvalue { key with path := none, edges } hnone q).tail

theorem keyBehindPath_astray (htail : K.tail ≠ [])
    (key : Key (Span Nat)) :
    Ensures (Stranded K) (keyBehindPath value₁ key) (K.Astray fun _ => Stranded K) := by
  refine .stranded fun q c hc hvisible hrest hknown => .peekOnLineKnown hknown hvisible ?_
  have hstranded : ∀ s, s.At K.first q [] → Stranded K s := fun s hs => ⟨q, c, hs, hrest, hc⟩
  refine .ite (fun h => ?_) fun _ => .ite (fun _ => .retreat ?_) fun _ => .retreat ?_
  · rcases hc with rfl | rfl <;> cases h
  · exact fun s hs => Ensures.astray (edges_astray htail key.path)
      (fun _ _ _ h => h.elim) s (hstranded s hs)
  · exact fun s hs => keyValue_astray htail key s (hstranded s hs)

end

/-! ### Whole keys -/

section

variable {value₁ : Grammar Nat (Option (Value (Span Nat)))}
  {value₂ : Grammar π (Option (Value (Span π)))}

/-- Where nothing is left, a key has no further parts. -/
theorem keyBehindAmpersand_exhausted {s : State Nat} (h : s.Exhausted) (key : Key (Span Nat)) :
    keyBehindAmpersand value₁ key s = (key, s) := by
  rw [keyBehindAmpersand, bind_apply, h.peek]
  rfl

theorem pathAndKey_exhausted {s : State Nat} (h : s.Exhausted) {key : Key (Span Nat)}
    (hpath : key.path = none) :
    (path >>= fun path => keyBehindPath value₁ { key with path }) s = (key, s) := by
  have hbehind : keyBehindPath value₁ key s = (key, s) := by
    rw [keyBehindPath, bind_apply, h.peekOnLine]
    rfl
  have hsame : { key with path := none } = key := by
    cases key
    cases hpath
    rfl
  rw [bind_apply, h.path]
  dsimp only
  rw [hsame]
  exact hbehind

theorem keyBehindAmpersand_alike (hgroup : K.first.inGroup = false)
    (hvalue : ValueTwins φ K value₁ value₂) (key : Key (Span Nat)) (hpath : key.path = none)
    (hnone : key.value = none) (p : List Char) :
    Alike K (Twin K p []) (keyBehindAmpersand value₁ key)
      (keyBehindAmpersand value₂ (key.mapMarks (Span.map K.place))) (fun _ => Stranded K)
      (Notes K (φ.key K.place) φ.keyNotes) := by
  have hrest : Alike K (Twin K p []) (path >>= fun path => keyBehindPath value₁ { key with path })
      (path >>= fun path =>
        keyBehindPath value₂ { key.mapMarks (Span.map K.place) with path })
      (fun _ => Stranded K) (Notes K (φ.key K.place) φ.keyNotes) := by
    refine .callReads (path_alike p) (path_reads p) (fun htail path => ?_) fun path q hq hin => ?_
    · exact keyBehindPath_astray htail _
    · have h := keyBehindPath_alike hgroup hvalue { key with path } hnone hq hin
      simp only [Key.mapMarks_eq] at h ⊢
      exact h
  have hbare := (φ.key_of_none K.place hnone).symm
  refine .peekExhausted (if_neg (by decide)) (fun s hs => ?_)
    (.doneBare hbare (φ.keyNotes_of_none hnone)) hrest fun c =>
    .ite Iff.rfl (fun _ => .accept (edgeGroup_alike hgroup hvalue key hnone _)) fun _ =>
      .retreat hrest
  exact (pathAndKey_exhausted hs hpath).symm

theorem keyParts_alike (hgroup : K.first.inGroup = false) (hvalue : ValueTwins φ K value₁ value₂)
    (key : Key (Span Nat)) (hpath : key.path = none) (hnone : key.value = none) (p : List Char) :
    Alike K (Twin K p []) (keyParts value₁ key)
      (keyParts value₂ (key.mapMarks (Span.map K.place))) (fun _ => Stranded K)
      (Notes K (φ.key K.place) φ.keyNotes) := by
  have hrest := keyBehindAmpersand_alike hgroup hvalue key hpath hnone p
  have hbare := (φ.key_of_none K.place hnone).symm
  refine .peekExhausted (if_neg (by decide)) (fun s hs => ?_)
    (.doneBare hbare (φ.keyNotes_of_none hnone)) hrest fun c =>
    .ite Iff.rfl (fun _ => .accept ?_) fun _ => .retreat hrest
  · exact (keyBehindAmpersand_exhausted hs key).symm
  · have h := keyBehindAmpersand_alike hgroup hvalue { key with ampersand := true } hpath hnone
      (c :: p)
    simp only [Key.mapMarks_eq] at h ⊢
    exact h

/-- **Keys**: both runs read the same key up to the form of its value, or the first leaves a dash or
a star of it. -/
theorem key_alike (hgroup : K.first.inGroup = false) (hvalue : ValueTwins φ K value₁ value₂)
    (p : List Char) :
    Alike K (Twin K p []) (key value₁) (key value₂) (fun _ => Stranded K)
      (Notes K (Option.map (φ.key K.place)) φ.keyNotes?) := by
  refine .here (.callNotesStray (keyParts_alike hgroup hvalue _ rfl rfl p) (fun htail key => ?_)
    fun key q => .here ?_)
  · rintro s hstranded
    refine Ensures.bind (R := fun _ => Stranded K) (fun _ hs => hs) (fun stop => ?_) s hstranded
    exact .ite (fun _ => .astray_pure htail fun _ hs => hs) fun _ =>
      .astray_pure htail fun _ hs => hs
  · have hnamed : (φ.key K.place key).isNamed = key.isNamed := Key.isNamed_mapMarks _ key
    rw [hnamed]
    refine .ite Iff.rfl (fun hnamed => .doneNotes ?_ (φ.keyNotes_of_named (.inl hnamed)))
      fun hunnamed => .doneNotes rfl (if_neg hunnamed)
    simp only [Option.map_some, Rendering.key, Key.mapMarks_eq]
    rfl

end

end Diagram.Grammar
