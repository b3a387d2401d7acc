import Diagram.Proofs.Twin.Steps

/-!
Places, problems and levels in two runs side by side. The places of the first run are indexes of the
common text, and those of the second are the same indexes in other places. The first problem ends a
comparison with more text behind it; otherwise both runs notice the same problems.
-/
namespace Diagram

variable {π : Type} {K : Pairing π} {p l : List Char} {s : State Nat} {t : State π}

/-! ## What twins notice -/

namespace Twin

theorem reach (h : Twin K p l s t) (hvoids : ∃ cause, ¬K.voids cause) :
    t.reader.reach = K.place s.reader.reach := by
  have hcount : s.reader.count ≤ K.first.text.length := by
    rw [h.first.reader.count_eq, ← h.first.reader.text, Reader.unread]
    simp
    omega
  rw [h.first.reader.reachMark, K.first_mark hcount, h.second.reader.reachMark,
    h.counts.1 hvoids, K.place_eq hcount]

/-- Both runs notice the same problem. -/
theorem report {cause : Cause} {start : Onset Nat} {stop : Nat} (h : Twin K p l s t)
    (htail : K.tail = [])
    (hstart : ∀ i, start = .colonBefore i → 0 < i ∧ i ≤ K.first.text.length) :
    Twin K p l { s with problems := ⟨cause, start, stop⟩ :: s.problems }
      { t with problems := ⟨cause, start.map K.place, K.place stop⟩ :: t.problems } where
  first := ⟨h.first.reader, h.first.depth, h.first.limit, h.first.inGroup⟩
  second := ⟨h.second.reader, h.second.depth, h.second.limit, h.second.inGroup⟩
  problems := by
    rw [h.problems]
    rfl
  onsets := List.forall_mem_cons.mpr ⟨hstart, h.onsets⟩
  clean hne := absurd htail hne
  counts := h.counts

/-- Both runs enter a level. -/
theorem descend (h : Twin K p l s t) :
    Twin K.deeper p l { s with depth := s.depth + 1 } { t with depth := t.depth + 1 } where
  first := ⟨h.first.reader, congrArg (· + 1) h.first.depth, h.first.limit, h.first.inGroup⟩
  second := ⟨h.second.reader, congrArg (· + 1) h.second.depth, h.second.limit, h.second.inGroup⟩
  problems := h.problems
  onsets := h.onsets
  clean := h.clean
  counts := h.counts

/-- Both runs leave a level. -/
theorem ascend (h : Twin K.deeper p l s t) :
    Twin K p l { s with depth := s.depth - 1 } { t with depth := t.depth - 1 } where
  first := ⟨h.first.reader, congrArg (· - 1) h.first.depth, h.first.limit, h.first.inGroup⟩
  second := ⟨h.second.reader, congrArg (· - 1) h.second.depth, h.second.limit, h.second.inGroup⟩
  problems := h.problems
  onsets := h.onsets
  clean := h.clean
  counts := h.counts

/-- Both runs come to stand inside the parentheses of an edge group, or outside. -/
theorem setGroup (h : Twin K p l s t) (b : Bool) :
    Twin (K.grouped b) p l { s with inGroup := b } { t with inGroup := b } where
  first := ⟨h.first.reader, h.first.depth, h.first.limit, rfl⟩
  second := ⟨h.second.reader, h.second.depth, h.second.limit, rfl⟩
  problems := h.problems
  onsets := h.onsets
  clean := h.clean
  counts := h.counts

end Twin

namespace Grammar

namespace Alike

variable {α₁ α₂ β₁ β₂ : Type} {P : State Nat → State π → Prop} {E : β₁ → State Nat → Prop}
  {Q : β₁ → β₂ → State Nat → State π → Prop}

/-! ## Places -/

/-- A question that each run has its own answer to. -/
theorem asking {question₁ : State Nat → α₁} {question₂ : State π → α₂} {a : α₁} {b : α₂}
    {f₁ : α₁ → Grammar Nat β₁} {f₂ : α₂ → Grammar π β₂}
    (ha : ∀ s t, P s t → question₁ s = a ∧ question₂ t = b) (h : Alike K P (f₁ a) (f₂ b) E Q) :
    Alike K P (Grammar.asking question₁ >>= f₁) (Grammar.asking question₂ >>= f₂) E Q := by
  intro s t hs
  obtain ⟨rfl, rfl⟩ := ha s t hs
  exact h s t hs

theorem here {f₁ : Nat → Grammar Nat β₁} {f₂ : π → Grammar π β₂}
    (h : Alike K (Twin K p l) (f₁ p.length) (f₂ (K.place p.length)) E Q) :
    Alike K (Twin K p l) (Grammar.here >>= f₁) (Grammar.here >>= f₂) E Q :=
  .asking (fun _ _ hs => hs.place) h

theorem lookedPlace {f₁ : Nat → Grammar Nat β₁} {f₂ : π → Grammar π β₂}
    (h : Alike K (Twin K p l) (f₁ (p.length + l.length)) (f₂ (K.place (p.length + l.length))) E Q) :
    Alike K (Twin K p l) (Grammar.lookedPlace >>= f₁) (Grammar.lookedPlace >>= f₂) E Q :=
  .asking (fun _ _ hs => hs.lookedPlace) h

/-- The place behind what has been looked at is the one behind the character looked at last. -/
theorem lookedBehind {b : List Char} {c : Char} {f₁ : Nat → Grammar Nat β₁} {f₂ : π → Grammar π β₂}
    (h : ∀ i, K.first.text[i]? = some c →
      Alike K (Twin K p (c :: b)) (f₁ (i + 1)) (f₂ (K.place (i + 1))) E Q) :
    Alike K (Twin K p (c :: b)) (Grammar.lookedPlace >>= f₁) (Grammar.lookedPlace >>= f₂) E Q := by
  refine .lookedPlace fun s t hs => ?_
  have hknown : K.first.text[(b ++ p).length]? = some c :=
    Reader.At.known (b := []) hs.first.reader.accept
  have hlength : p.length + (c :: b).length = (b ++ p).length + 1 := by
    simp
    omega
  rw [hlength]
  exact h _ hknown s t hs

/-- The place in front of a character of the common text. -/
theorem before {i : Nat} {c : Char} {f₁ : Nat → Grammar Nat β₁} {f₂ : π → Grammar π β₂}
    (hi : K.first.text[i]? = some c) (hc : c ≠ '\n')
    (h : Alike K (Twin K p l) (f₁ i) (f₂ (K.place i)) E Q) :
    Alike K (Twin K p l) (Grammar.before (i + 1) c >>= f₁)
      (Grammar.before (K.place (i + 1)) c >>= f₂) E Q := by
  intro s t hs
  have hlt : i < K.first.text.length := (List.getElem?_eq_some_iff.mp hi).1
  have hi' : K.second.text[K.base.length + i]? = some c := by
    rw [K.text, List.append_assoc, List.getElem?_append_right (by simp)]
    simpa [List.getElem?_append_left hlt] using hi
  rw [bind_apply, bind_apply, before_apply hc, before_apply hc, hs.first.reader.meter,
    hs.second.reader.meter, K.meter]
  have hback : K.second.meter.before (K.place (i + 1)) c = K.place i := by
    rw [K.place_eq (Nat.succ_le_of_lt hlt), K.place_eq (Nat.le_of_lt hlt)]
    exact Tape.mark_before hi' hc
  rw [hback]
  exact h s t hs

/-- Stepping back over characters consumed leads to the place in front of them. -/
theorem beforeAll {b q cs : List Char} {n : Nat} {f₁ : Nat → Grammar Nat β₁}
    {f₂ : π → Grammar π β₂} (hq : q = b ++ (cs ++ p)) (hn : n = (cs ++ p).length)
    (hcs : ∀ c ∈ cs, c ≠ '\n')
    (h : Alike K (Twin K q l) (f₁ p.length) (f₂ (K.place p.length)) E Q) :
    Alike K (Twin K q l) (Grammar.beforeAll n cs >>= f₁) (Grammar.beforeAll (K.place n) cs >>= f₂)
      E Q := by
  induction cs generalizing b n with
  | nil =>
    rw [hn]
    exact h
  | cons c cs ih =>
    have hc : c ≠ '\n' := hcs c (by simp)
    simp only [Grammar.beforeAll, bind_assoc]
    intro s t hs
    have hknown : K.first.text[(cs ++ p).length]? = some c := by
      have hat := hs.first
      rw [hq] at hat
      exact hat.reader.known
    rw [hn, List.cons_append, List.length_cons]
    refine Alike.before hknown hc ?_ s t hs
    exact ih (b := b ++ [c]) (by simp [hq]) rfl fun x hx => hcs x (by simp [hx])

/-- The place of the character consumed last is the one in front of it. -/
theorem placeOf {c : Char} {f₁ : Nat → Grammar Nat β₁} {f₂ : π → Grammar π β₂} (hc : c ≠ '\n')
    (h : Alike K (Twin K (c :: p) []) (f₁ p.length) (f₂ (K.place p.length)) E Q) :
    Alike K (Twin K (c :: p) []) (Grammar.placeOf c >>= f₁) (Grammar.placeOf c >>= f₂) E Q := by
  simp only [Grammar.placeOf, bind_assoc]
  refine .here (.known_of_consumed fun hknown => ?_)
  rw [List.length_cons]
  exact .before hknown hc h

/-! ## Problems -/

theorem report {cause : Cause} {start stop : Nat} {f₁ : Unit → Grammar Nat β₁}
    {f₂ : Unit → Grammar π β₂}
    (h : K.tail = [] → Alike K (Twin K p l) (f₁ ()) (f₂ ()) E Q) :
    Alike K (Twin K p l) (Grammar.report cause start stop >>= f₁)
      (Grammar.report cause (K.place start) (K.place stop) >>= f₂) E Q := by
  intro s t hs
  by_cases htail : K.tail = []
  · exact h htail _ _ (hs.report htail (by simp))
  · exact .inl (Ensures.astray_report (P := State.At K.first p l) htail s hs.first)

theorem reportAtColon {cause : Cause} {stop : Nat} {f₁ : Unit → Grammar Nat β₁}
    {f₂ : Unit → Grammar π β₂} (hstop : 0 < stop) (hle : stop ≤ K.first.text.length)
    (h : K.tail = [] → Alike K (Twin K p l) (f₁ ()) (f₂ ()) E Q) :
    Alike K (Twin K p l) (Grammar.reportAtColon cause stop >>= f₁)
      (Grammar.reportAtColon cause (K.place stop) >>= f₂) E Q := by
  intro s t hs
  by_cases htail : K.tail = []
  · refine h htail _ _ (hs.report htail fun i hi => ?_)
    cases hi
    exact ⟨hstop, hle⟩
  · exact .inl (stays_astray _ _ ⟨⟨cause, .colonBefore stop, stop⟩, List.mem_cons_self,
      K.voids_of_tail htail cause⟩)

theorem reportToHere {cause : Cause} {start : Nat} {f₁ : Unit → Grammar Nat β₁}
    {f₂ : Unit → Grammar π β₂}
    (h : K.tail = [] → Alike K (Twin K p l) (f₁ ()) (f₂ ()) E Q) :
    Alike K (Twin K p l) (Grammar.reportToHere cause start >>= f₁)
      (Grammar.reportToHere cause (K.place start) >>= f₂) E Q := by
  simp only [Grammar.reportToHere, bind_assoc]
  exact .here (.report h)

/-- A problem that makes the comparison void. -/
theorem voidToHere {cause : Cause} {start : Nat} {f₁ : Unit → Grammar Nat β₁} {g₂ : Grammar π β₂}
    (hvoid : K.voids cause) : Alike K P (Grammar.reportToHere cause start >>= f₁) g₂ E Q :=
  fun s _ _ => .inl (stays_astray _ _
    ⟨⟨cause, .place start, s.reader.place⟩, List.mem_cons_self, hvoid⟩)

theorem reportToReach {cause : Cause} {start : Nat} {f₁ : Unit → Grammar Nat β₁}
    {f₂ : Unit → Grammar π β₂}
    (h : K.tail = [] → Alike K (Twin K p l) (f₁ ()) (f₂ ()) E Q) :
    Alike K (Twin K p l) (Grammar.reportToReach cause start >>= f₁)
      (Grammar.reportToReach cause (K.place start) >>= f₂) E Q := by
  intro s t hs
  by_cases hvoids : ∃ cause, ¬K.voids cause
  · have htail := K.tail_eq_nil hvoids
    have hnoted : Twin K p l
        { s with problems := ⟨cause, .place start, s.reader.reach⟩ :: s.problems }
        { t with
          problems := ⟨cause, .place (K.place start), K.place s.reader.reach⟩ :: t.problems } :=
      hs.report htail (by simp)
    rw [← hs.reach hvoids] at hnoted
    exact h htail _ _ hnoted
  · exact .inl (stays_astray _ _ ⟨⟨cause, .place start, s.reader.reach⟩, List.mem_cons_self,
      Classical.not_not.mp fun hvoid => hvoids ⟨cause, hvoid⟩⟩)

theorem noteSkip {start : Nat} {start' : π} {f₁ : Unit → Grammar Nat β₁}
    {f₂ : Unit → Grammar π β₂} (h : Alike K (Twin K p l) (f₁ ()) (f₂ ()) E Q) :
    Alike K (Twin K p l) (Grammar.noteSkip start >>= f₁) (Grammar.noteSkip start' >>= f₂) E Q :=
  fun _ _ hs => h _ _
    ⟨⟨hs.first.reader, hs.first.depth, hs.first.limit, hs.first.inGroup⟩,
      ⟨hs.second.reader, hs.second.depth, hs.second.limit, hs.second.inGroup⟩,
      hs.problems, hs.onsets, hs.clean, hs.counts⟩

/-- Something is done by both runs, or by neither. -/
theorem whenever {b : Bool} {g₁ : Grammar Nat Unit} {g₂ : Grammar π Unit}
    {f₁ : Unit → Grammar Nat β₁} {f₂ : Unit → Grammar π β₂}
    (hdone : b = true → Alike K P (g₁ >>= f₁) (g₂ >>= f₂) E Q)
    (hnot : b = false → Alike K P (f₁ ()) (f₂ ()) E Q) :
    Alike K P (Grammar.whenever b g₁ >>= f₁) (Grammar.whenever b g₂ >>= f₂) E Q := by
  cases b with
  | false => exact hnot rfl
  | true => exact hdone rfl

/-! ## Levels -/

theorem inGroup {f₁ : Bool → Grammar Nat β₁} {f₂ : Bool → Grammar π β₂}
    (h : Alike K (Twin K p l) (f₁ K.first.inGroup) (f₂ K.first.inGroup) E Q) :
    Alike K (Twin K p l) (Grammar.inGroup >>= f₁) (Grammar.inGroup >>= f₂) E Q :=
  .asking (fun _ _ hs => ⟨hs.first.inGroup, hs.second.inGroup.trans K.inGroup⟩) h

theorem depth {f₁ : Nat → Grammar Nat β₁} {f₂ : Nat → Grammar π β₂}
    (h : Alike K (Twin K p l) (f₁ K.first.depth) (f₂ (K.first.depth + K.shift)) E Q) :
    Alike K (Twin K p l) (Grammar.depth >>= f₁) (Grammar.depth >>= f₂) E Q :=
  .asking (fun _ _ hs => ⟨hs.first.depth, hs.second.depth.trans K.depth⟩) h

/-- Each run is at its limit or not. -/
theorem eachLimit {f₁ : Bool → Grammar Nat β₁} {f₂ : Bool → Grammar π β₂}
    (h : Alike K (Twin K p l) (f₁ (decide (K.first.limit ≤ K.first.depth)))
      (f₂ (decide (K.second.limit ≤ K.second.depth))) E Q) :
    Alike K (Twin K p l) (Grammar.atLimit >>= f₁) (Grammar.atLimit >>= f₂) E Q := by
  refine .asking (fun s t hs => ⟨?_, ?_⟩) h
  · rw [hs.first.limit, hs.first.depth]
  · rw [hs.second.limit, hs.second.depth]

/-- Both runs are at their limit, or neither is, unless the first run comes to its limit earlier. -/
theorem atLimit {f₁ : Bool → Grammar Nat β₁} {f₂ : Bool → Grammar π β₂} (hlimits : K.Limits)
    (hvoid : K.voids .nestingTooDeep → Ensures (State.At K.first p l) (f₁ true) (K.Astray E))
    (h : ∀ b, b = decide (K.first.limit ≤ K.first.depth) →
      Alike K (Twin K p l) (f₁ b) (f₂ b) E Q) :
    Alike K (Twin K p l) (Grammar.atLimit >>= f₁) (Grammar.atLimit >>= f₂) E Q := by
  intro s t hs
  have hfirst : Grammar.atLimit s = (decide (K.first.limit ≤ K.first.depth), s) := by
    rw [Grammar.atLimit, asking_apply, hs.first.limit, hs.first.depth]
  have hsecond : Grammar.atLimit t = (decide (K.second.limit ≤ K.second.depth), t) := by
    rw [Grammar.atLimit, asking_apply, hs.second.limit, hs.second.depth]
  rw [bind_apply, bind_apply, hfirst, hsecond]
  have hdepth := K.depth
  have hle := hlimits.le
  rcases hlimits.eq_or_void with hlimit | hvoids
  · have hsame : decide (K.second.limit ≤ K.second.depth) =
        decide (K.first.limit ≤ K.first.depth) := by
      rw [decide_eq_decide]
      omega
    rw [hsame]
    exact h _ rfl s t hs
  · -- the second run has room wherever the first has
    by_cases hdeep : K.first.limit ≤ K.first.depth
    · rw [decide_eq_true hdeep]
      exact .inl (hvoid hvoids s hs.first)
    · have hsame : decide (K.second.limit ≤ K.second.depth) =
          decide (K.first.limit ≤ K.first.depth) := by
        rw [decide_eq_decide]
        omega
      rw [hsame]
      exact h _ rfl s t hs

theorem setGroup {b : Bool} {f₁ : Unit → Grammar Nat β₁} {f₂ : Unit → Grammar π β₂}
    (h : Alike (K.grouped b) (Twin (K.grouped b) p l) (f₁ ()) (f₂ ()) E Q) :
    Alike K (Twin K p l) (Grammar.setGroup b >>= f₁) (Grammar.setGroup b >>= f₂) E Q :=
  fun _ _ hs => h _ _ (hs.setGroup b)

/-- Nothing is noted outside of edge groups. -/
theorem outsideGroup {f₁ : Unit → Grammar Nat β₁} {f₂ : Unit → Grammar π β₂}
    (hgroup : K.first.inGroup = false) (h : Alike K (Twin K p l) (f₁ ()) (f₂ ()) E Q) :
    Alike K (Twin K p l) (Grammar.outsideGroup >>= f₁) (Grammar.outsideGroup >>= f₂) E Q := by
  simp only [Grammar.outsideGroup, bind_assoc]
  refine .inGroup (.whenever (fun hin => ?_) fun _ => h)
  rw [hgroup] at hin
  cases hin

/-- A level that is entered is left again; in it, the second run may notice problems of its own. -/
theorem nestedNotes {g₁ : Grammar Nat α₁} {g₂ : Grammar π α₂} {f₁ : α₁ → Grammar Nat β₁}
    {f₂ : α₂ → Grammar π β₂} {E' : α₁ → State Nat → Prop} {f : α₁ → α₂} {N : α₁ → List (Problem π)}
    (hg : Alike K.deeper (Twin K.deeper p []) g₁ g₂ E' (Notes K.deeper f N))
    (hstray : K.tail ≠ [] → ∀ a, Ensures (E' a) (ascend >>= fun _ => f₁ a) (K.Astray E))
    (hf : ∀ a q, Alike (K.noting (N a)) (Twin (K.noting (N a)) q []) (f₁ a) (f₂ (f a)) E Q) :
    Alike K (Twin K p []) (Grammar.nested g₁ >>= f₁) (Grammar.nested g₂ >>= f₂) E Q := by
  intro s t hs
  rcases hg _ _ hs.descend with (hvoid | ⟨htail, hE⟩) | ⟨hb, q, htwin⟩
  · exact .inl (stays_astray g₁ (fun a => ascend >>= fun _ => f₁ a) hvoid)
  · exact .inl (hstray htail _ _ hE)
  · have h := hf (g₁ { s with depth := s.depth + 1 }).1 q _ _ (Twin.ascend (K := K.noting _) htwin)
    rw [← hb] at h
    have hfirst := State.At.depth_ne_zero (F := K.first) htwin.first
    have hsecond := State.At.depth_ne_zero (F := K.second) htwin.second
    rw [bind_apply, bind_apply, nested_apply hfirst, nested_apply hsecond]
    exact h

/-- A level that is entered is left again. -/
theorem nested {g₁ : Grammar Nat α₁} {g₂ : Grammar π α₂} {f₁ : α₁ → Grammar Nat β₁}
    {f₂ : α₂ → Grammar π β₂} {E' : α₁ → State Nat → Prop} {f : α₁ → α₂}
    (hg : Alike K.deeper (Twin K.deeper p []) g₁ g₂ E' (Meets K.deeper f))
    (hstray : K.tail ≠ [] → ∀ a, Ensures (E' a) (ascend >>= fun _ => f₁ a) (K.Astray E))
    (hf : ∀ a q, Alike K (Twin K q []) (f₁ a) (f₂ (f a)) E Q) :
    Alike K (Twin K p []) (Grammar.nested g₁ >>= f₁) (Grammar.nested g₂ >>= f₂) E Q :=
  .nestedNotes (N := fun _ => []) hg hstray hf

end Alike

end Grammar

end Diagram
