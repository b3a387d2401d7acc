import Diagram.Proofs.Diagnostics.Missing
import Diagram.Proofs.Diagnostics.Text

/-!
The problems of keys, values and the containers that hold them lie in the text.

What is said of containers and keys rests on what the grammar of the values inside them does;
`valueWithin_notices` closes the circle.
-/
namespace Diagram.Grammar

variable {π : Type} {F : Frame π} {n : Nat}

/-! ## Containers that are nested too deep -/

theorem quiet_skipCharacter (opening closing : Char) (nesting : Nat) :
    Quiet (skipCharacter opening closing nesting : Grammar π (Next Nat)) := by
  refine .looking (.reading _) .pure fun _ => .ite .pure (.ite ?_ .pure)
  exact .bind (.whenever (.adjusting _)) fun _ => .pure

theorem skipContainer_notices (opening closing : Char) {unterminated : Cause} {p : List Char}
    (hn : n ≤ p.length) (hcause : ∀ c, unterminated ≠ .invalidItemStart c) :
    Notices F.toTape (State.At F p []) (skipContainer (F.mark n) opening closing unterminated) := by
  refine .noteSkip (.next (.reportToHere hn nofun) .reportToHere_stays ?_)
  refine .call (.quiet (.repeating (quiet_skipCharacter opening closing) 1))
    (repeating_ensures (I := fun nesting _ => 0 < nesting)
      (fun _ p h => skipCharacter_reads opening closing p h) Nat.one_pos) fun _ _ hq _ => ?_
  exact .whenever fun _ => .reportToReach (Nat.le_trans hn hq) hcause

/-! ## What follows a node -/

theorem quiet_trailingCharacter (closing : Char) (u : Unit) :
    Quiet (trailingCharacter closing u : Grammar π (Next Unit)) :=
  .looking .peekOnLine .pure fun _ => .ite .moved .moved

theorem trailingText_notices [DecidableEq π] (typeName : Option String) (closing : Char)
    {fallback : Cause} (hcause : ∀ c, fallback ≠ .invalidItemStart c) (p : List Char) :
    Notices F.toTape (State.At F p []) (trailingText typeName closing fallback) := by
  have htext : ∀ c, (typeName.map Cause.textAfter).getD fallback ≠ .invalidItemStart c := by
    cases typeName with
    | none => exact hcause
    | some name => nofun
  refine .here (.call (.quiet (.repeating (quiet_trailingCharacter closing) ()))
    (repeating_ensures (fun u p _ => trailingCharacter_reads closing u p) trivial)
      fun _ q hq _ => ?_)
  exact .here (.whenever fun _ => .bounded fun hlength => .report hq (by omega) htext)

/-! ## Keys -/

/-- The parts of a key that starts at a place behind which reading has come are read as they should
be, and their problems lie in the text. -/
def NoticesParts (F : Frame π) (g : Key (Span π) → Grammar π (Key (Span π))) : Prop :=
  ∀ n key p, n ≤ p.length → key.range.start = F.mark n → key.PartsWithin F.cover n p.length →
    Notices F.toTape (State.At F p []) (g key)

/-- Values are read as they should be, and their problems lie in the text. One that starts with a
visible character and is missing is no sequence and no map. -/
structure NoticesValues (F : Frame π) (value : Grammar π (Option (Value (Span π)))) : Prop where
  reads : Reads F (Value.Within F.cover) value
  notices : ∀ p, Notices F.toTape (State.At F p []) value
  misses : ∀ p c, F.text[p.length]? = some c → isBlank c = false → Ensures (State.At F p []) value
    (Onward F p.length fun v j => v = none → c ∉ ['[', '{'] ∧ Missed F.text p.length j)

section

variable {value : Grammar π (Option (Value (Span π)))}

theorem mapBehind_notices (hvalue : NoticesValues F value) (key : Key (Span π))
    (scalar : Scalar (Span π)) (p : List Char) :
    Notices F.toTape (State.At F p []) (mapBehind value key scalar) := by
  refine .peekOnLine .pure fun b c _ => .ite ?_ fun _ => .retreat .pure
  rintro rfl
  exact .accept (.putBack (by decide) (.mapped (hvalue.notices _)))

/-- Where no value is found, one is missing in front of the place that reading has come to. -/
theorem valueOfKey_notices (hvalue : NoticesValues F value) (key : Key (Span π)) (p : List Char) :
    Notices F.toTape (State.At F p []) (valueOfKey value key) := by
  refine .call (hvalue.notices p) (hvalue.reads p) fun v q _ _ => ?_
  match v with
  | none => exact .here (.mapped .reportMissingValue)
  | some (.scalar scalar) => exact mapBehind_notices hvalue key scalar q
  | some (.sequence _) | some (.map _) => exact .pure

theorem keyValue_notices (hvalue : NoticesValues F value) : NoticesParts F (keyValue value) := by
  intro n key p hn hstart _
  refine .peekOnLine .pure fun b c _ => .ite (fun _ => ?_) fun _ =>
    .ite (fun _ => .accept ?_) fun _ => .retreat .pure
  · exact .retreat (.ite (fun _ => valueOfKey_notices hvalue key p) fun _ => .pure)
  · rw [hstart]
    refine .next (.whenever fun _ => .reportToHere ?_ nofun) (.whenever_stays .reportToHere_stays)
      (valueOfKey_notices hvalue key _)
    simp
    omega

end

/-! ### Edge groups -/

theorem Notices.acceptBehind {t : Tape π} {β : Type} {c : Char} {p : List Char}
    {f : Behind → Grammar π β}
    (hfound : ∀ q, p.length ≤ q.length → Notices t (State.At F (c :: q) []) (f .found))
    (hother : Notices t (State.At F p []) (f .other))
    (hlineEnd : Notices t (State.At F p []) (f .lineEnd)) :
    Notices t (State.At F p []) (acceptBehind c >>= f) :=
  .step (.looking .peekOnLine .pure fun _ => .ite .moved .moved)
    (.acceptBehind hfound hother hlineEnd)

theorem groupPath_notices (key : Key (Span π)) (p : List Char) :
    Notices F.toTape (State.At F p []) (groupPath key) :=
  .acceptBehind (fun _ _ => .mapped (path_notices _)) .pure .pure

theorem groupIndex_notices (key : Key (Span π)) (p : List Char) :
    Notices F.toTape (State.At F p []) (groupIndex key) := by
  refine .acceptBehind (fun q _ => ?_) (groupPath_notices key p) .pure
  exact .call (edgeIndex_notices q) (edgeIndex_reads q) fun _ q _ _ => groupPath_notices _ q

theorem groupParts_notices {key : Key (Span π)} {p : List Char} (hn : n ≤ p.length)
    (hstart : key.range.start = F.mark n) :
    Notices F.toTape (State.At F p []) (groupParts key) := by
  refine .call (path_notices p) (path_reads p) fun source q hq hsource => ?_
  have hsource' : ∀ x ∈ source, x.Within F.cover n q.length :=
    fun x hx => (hsource x hx).mono hn (Nat.le_refl _)
  refine .call (edges_notices (by omega) hsource') (edges_reads (by omega) hsource')
    fun edges q' hq' _ => ?_
  have hopen : Notices F.toTape (State.At F q' [])
      (reportToHere .unterminatedEdgeGroup key.range.start >>= fun _ =>
        Pure.pure ({ key with edges }, false)) := by
    rw [hstart]
    exact .mapped (.reportToHere (by omega) nofun)
  exact .acceptBehind (fun r _ => groupIndex_notices _ _) hopen hopen

/-- The parts of an edge group lie where they were read, and the key still starts where it did. -/
theorem groupParts_keeps {key : Key (Span π)} {p : List Char} (hn : n ≤ p.length)
    (hkey : key.PartsWithin F.cover n p.length) :
    Ensures (State.At F p []) (groupParts key) (Onward F p.length fun r j =>
      r.1.range = key.range ∧ r.1.PartsWithin F.cover n j) := by
  intro s hs
  obtain ⟨q, hq, hs', hparts⟩ := groupParts_reads hn hkey s hs
  obtain ⟨edges, edgeIndex, edgePath, heq⟩ := groupParts_eq key s
  refine ⟨q, hq, hs', ?_, hparts⟩
  rw [heq]

section

variable {value : Grammar π (Option (Value (Span π)))}

theorem edgeGroup_notices (hgroup : F.inGroup = false) (hvalue : NoticesValues F value) :
    NoticesParts F (edgeGroup value) := by
  intro n key p hn hstart hkey
  refine .setGroup (.call (groupParts_notices (F := F.grouped true) hn hstart)
    (groupParts_keeps (F := F.grouped true) hn hkey) fun r q hq hr => ?_)
  obtain ⟨key', goesOn⟩ := r
  refine .setGroup ?_
  rw [Frame.grouped_grouped hgroup]
  refine .ite (fun _ => ?_) fun _ => .pure
  exact keyValue_notices hvalue n key' q (by omega) (hr.1 ▸ hstart) hr.2

theorem keyBehindPath_notices (hgroup : F.inGroup = false) (hvalue : NoticesValues F value) :
    NoticesParts F (keyBehindPath value) := by
  intro n key p hn hstart hkey
  refine .peekOnLine .pure fun b c _ => .ite (fun _ => .accept ?_) fun _ =>
    .ite (fun _ => .retreat ?_) fun _ => .retreat (keyValue_notices hvalue n key p hn hstart hkey)
  · exact edgeGroup_notices hgroup hvalue n key _ (by simp; omega) hstart
      (hkey.mono (by simp; omega))
  · refine .call (edges_notices hn hkey.1) (edges_reads hn hkey.1) fun edges q hq hedges => ?_
    exact keyValue_notices hvalue n _ q (by omega) hstart (hkey.behindEdges hq hedges)

theorem keyBehindAmpersand_notices (hgroup : F.inGroup = false) (hvalue : NoticesValues F value) :
    NoticesParts F (keyBehindAmpersand value) := by
  intro n key p hn hstart hkey
  refine .peek .pure fun c => .ite (fun _ => .accept ?_) fun _ => .retreat ?_
  · exact edgeGroup_notices hgroup hvalue n key (c :: p) (by simp; omega) hstart
      (hkey.mono (Nat.le_succ p.length))
  · refine .call (path_notices p) (path_reads p) fun path q hq hpath => ?_
    exact keyBehindPath_notices hgroup hvalue n _ q (by omega) hstart (hkey.behindPath hn hq hpath)

theorem keyParts_notices (hgroup : F.inGroup = false) (hvalue : NoticesValues F value) :
    NoticesParts F (keyParts value) := by
  intro n key p hn hstart hkey
  refine .peek .pure fun c => .ite (fun _ => .accept ?_) fun _ => .retreat ?_
  · exact keyBehindAmpersand_notices hgroup hvalue n { key with ampersand := true } (c :: p)
      (by simp; omega) hstart (hkey.mono (Nat.le_succ p.length))
  · exact keyBehindAmpersand_notices hgroup hvalue n key p hn hstart hkey

theorem key_notices (hgroup : F.inGroup = false) (hvalue : NoticesValues F value) (p : List Char) :
    Notices F.toTape (State.At F p []) (key value) := by
  refine .here (.call (keyParts_notices hgroup hvalue _ _ p (Nat.le_refl _) rfl (.empty _))
    (keyParts_reads hgroup hvalue.reads _ _ p (Nat.le_refl _) (.empty _)) fun k q _ _ => ?_)
  exact .here (.ite (fun _ => .pure) fun _ => .pure)

end

/-! ## Maps and sequences -/

theorem nodeStart_notices {c : Char} (hc : isBlank c = false) (p : List Char) :
    Notices F.toTape (State.At F (c :: p) []) (nodeStart c) := by
  have hstart : Quiet (startNode c : Grammar π (Start (Span π))) := .moved
  refine .ite (fun _ => .quiet (.bind quiet_comment fun _ => .pure)) fun _ =>
    .ite ?_ fun _ => .ite ?_ fun _ => .quiet hstart
  · rintro rfl
    refine .step .acceptExactly (.acceptExactly ?_ ?_)
    · exact Notices.mapped (blockComment_notices p)
    · exact Notices.quiet hstart
  · rintro rfl
    refine .step .acceptExactly (.acceptExactly ?_ ?_)
    · exact Notices.mapped (spreadSubstitution_notices p)
    · exact Notices.quiet hstart

theorem Notices.nodeStart {β : Type} {c : Char} {p : List Char} {f : Start (Span π) → Grammar π β}
    (hc : isBlank c = false)
    (hremark : ∀ (r : Option (Remark (Span π))) (q : List Char),
      Notices F.toTape (State.At F q []) (f (.remark r)))
    (hnode : c ≠ '#' → Notices F.toTape (State.At F p []) (f .node)) :
    Notices F.toTape (State.At F (c :: p) []) (nodeStart c >>= f) :=
  .after (nodeStart_notices hc p) (.nodeStart hc (fun r q _ _ => hremark r q) hnode)

section

variable {value : Grammar π (Option (Value (Span π)))}

theorem entry_notices (hgroup : F.inGroup = false) (hvalue : NoticesValues F value) {c : Char}
    (hc : isBlank c = false) (p : List Char) :
    Notices F.toTape (State.At F (c :: p) []) (entry value c) :=
  .nodeStart hc (fun _ _ => .pure) fun _ => .mapped (key_notices hgroup hvalue p)

/-- The character behind which an item is missing is skipped, unless the text ends there. -/
theorem skipped_notices {c : Char} {q : List Char}
    (h : q.length ≤ F.text.length → Skips F.text c q.length) :
    Notices F.toTape (State.At F q []) (here >>= fun start => read >>= fun _ =>
      reportToHere (.invalidItemStart c) start >>= fun _ =>
        pure (none : Option (Item (Span π)))) := by
  refine .bounded fun hq => .here ?_
  have hi : q.length ≤ F.text.length := by simpa using hq
  cases hdrop : F.text.drop q.length with
  | nil =>
    have hend := List.drop_eq_nil_iff.mp hdrop
    exact .readNothing hdrop (.mapped (.reportSkipped hi (h hi) (by omega)))
  | cons x u =>
    have hlt := (List.getElem?_eq_some_iff.mp (getElem?_of_drop hdrop)).1
    exact .readNext hdrop (.mapped
      (.reportSkipped hi (h hi) (by simp only [List.length_cons]; omega)))

theorem item_notices (hvalue : NoticesValues F value) {c : Char} (hc : isBlank c = false)
    (hgoes : c ∉ [';', ']']) (p : List Char) :
    Notices F.toTape (State.At F (c :: p) []) (item value c) := by
  refine .known_of_consumed fun hknown => .nodeStart hc (fun _ _ => .pure) fun hhash =>
    .call (hvalue.notices p) (hvalue.misses p c hknown hc) fun v q _ hv => ?_
  cases v with
  | some v => exact .pure
  | none =>
    obtain ⟨hopens, hmissed⟩ := hv rfl
    refine skipped_notices fun hi => hmissed.skips hi hknown hc fun hends => ?_
    simp only [List.mem_cons, List.not_mem_nil, or_false, not_or] at hopens hgoes
    simpa [textEnds, hgoes, hhash, hopens] using hends

variable [DecidableEq π]

theorem entryLine_notices (hgroup : F.inGroup = false) (hvalue : NoticesValues F value)
    (entries : List (Entry (Span π))) {c : Char} (hc : isBlank c = false) (p : List Char) :
    Notices F.toTape (State.At F (c :: p) []) (entryLine value entries c) := by
  refine .call (entry_notices hgroup hvalue hc p) (entry_reads hgroup hvalue.reads hc p)
    fun e q _ _ => ?_
  split
  · exact .pure
  · exact .mapped (trailingText_notices _ _ (by nofun) q)

theorem itemLine_notices (hvalue : NoticesValues F value) (items : List (Item (Span π))) {c : Char}
    (hc : isBlank c = false) (hgoes : c ∉ [';', ']']) (p : List Char) :
    Notices F.toTape (State.At F (c :: p) []) (itemLine value items c) := by
  refine .call (item_notices hvalue hc hgoes p) (item_reads hvalue.reads hc p) fun x q _ _ => ?_
  split
  · exact .pure
  · exact .mapped (trailingText_notices _ _ (by nofun) q)

/-- A map starts in front of what is read of it, if it starts in the text. -/
theorem mapStep_notices (hgroup : F.inGroup = false) (hvalue : NoticesValues F value)
    (opened : Option Nat) (entries : List (Entry (Span π))) {p : List Char}
    (hopened : ∀ n ∈ opened, n ≤ p.length) :
    Notices F.toTape (State.At F p []) (mapStep value (opened.map F.mark) entries) := by
  refine .readVisible (fun hp => ?_) fun b c hc => .ite (fun _ => .pure) fun _ =>
    .ite ?_ fun _ => ?_
  · cases opened with
    | none => exact .pure
    | some n =>
      refine .mapped (.reportToReach (Nat.le_trans (hopened n rfl) ?_) nofun)
      simpa using hp
  · rintro rfl
    refine .ite (fun _ => .pure) fun _ => .mapped (.placeOf (by decide) (.reportToHere ?_ nofun))
    exact Nat.le_succ _
  · exact entryLine_notices hgroup hvalue entries hc _

theorem sequenceStep_notices (hvalue : NoticesValues F value) (items : List (Item (Span π)))
    {p : List Char} (hn : n ≤ p.length) :
    Notices F.toTape (State.At F p []) (sequenceStep value (F.mark n) items) := by
  refine .readVisible (fun hp => ?_) fun b c hc => .ite (fun _ => .pure) fun hsemicolon =>
    .ite (fun _ => .pure) fun hclosing => itemLine_notices hvalue items hc ?_ _
  case refine_2 => simp [hsemicolon, hclosing]
  refine .mapped (.reportToReach (Nat.le_trans hn ?_) nofun)
  simpa using hp

theorem map_notices (hgroup : F.inGroup = false)
    (hvalue : F.depth < F.limit → NoticesValues F.deeper value) (p : List Char) :
    Notices F.toTape (State.At F ('{' :: p) []) (map value) := by
  refine .outsideGroup hgroup (.placeOf (by decide) (.atLimit (.ite (fun _ => ?_) fun hroom => ?_)))
  · exact .call (skipContainer_notices _ _ (Nat.le_succ _) nofun) (skipContainer_reads _ _ _ _ _)
      fun _ _ _ _ => .here .pure
  · have hvalue := hvalue (by simpa using hroom)
    have hreads := fun entries (q : List Char)
        (h : EntriesWithin F.deeper p.length entries q.length) =>
      mapStep_reads (F := F.deeper) hgroup hvalue.reads (some (F.mark p.length)) h
    refine .nested (.repeating hreads (fun entries q hq _ => ?_) (Nat.le_succ p.length))
      (repeating_ensures hreads (Nat.le_succ p.length)) fun _ _ _ _ => .here .pure
    refine mapStep_notices (F := F.deeper) hgroup hvalue (some p.length) entries ?_
    intro n hn
    obtain rfl := Option.some.inj hn
    exact Nat.le_of_succ_le hq

theorem fileMap_notices (hgroup : F.inGroup = false) (hvalue : NoticesValues F value)
    (p : List Char) : Notices F.toTape (State.At F p []) (fileMap value) := by
  have hreads := fun entries (q : List Char) (h : EntriesWithin F p.length entries q.length) =>
    mapStep_reads hgroup hvalue.reads none h
  refine .outsideGroup hgroup (.here (.call (.repeating hreads (fun entries q _ _ => ?_)
    (Nat.le_refl p.length)) (repeating_ensures hreads (Nat.le_refl p.length))
    fun _ _ _ _ => .here .pure))
  exact mapStep_notices hgroup hvalue none entries (by simp)

theorem sequence_notices (hvalue : F.depth < F.limit → NoticesValues F.deeper value)
    (p : List Char) : Notices F.toTape (State.At F ('[' :: p) []) (sequence value) := by
  refine .placeOf (by decide) (.atLimit (.ite (fun _ => ?_) fun hroom => ?_))
  · exact .call (skipContainer_notices _ _ (Nat.le_succ _) nofun) (skipContainer_reads _ _ _ _ _)
      fun _ _ _ _ => .here .pure
  · have hvalue := hvalue (by simpa using hroom)
    have hreads := fun items (q : List Char) (h : ItemsWithin F.deeper p.length items q.length) =>
      sequenceStep_reads (F := F.deeper) hvalue.reads (F.mark p.length) h
    refine .nested (.repeating hreads (fun items q hq _ => ?_) (Nat.le_succ p.length))
      (repeating_ensures hreads (Nat.le_succ p.length)) fun _ _ _ _ => .here .pure
    exact sequenceStep_notices (F := F.deeper) hvalue items (Nat.le_of_succ_le hq)

end

/-! ## Values -/

variable [DecidableEq π]

theorem valueFrom_notices {inner : Grammar π (Option (Value (Span π)))}
    (hgroup : F.inGroup = false) (hinner : F.depth < F.limit → NoticesValues F.deeper inner)
    {c : Char} (hc : isBlank c = false) (p : List Char) :
    Notices F.toTape (State.At F (c :: p) []) (valueFrom inner c) := by
  refine .ite ?_ fun _ => .ite ?_ fun _ => .putBack (ne_newline_of_visible hc) ?_
  · rintro rfl
    exact .mapped (sequence_notices hinner p)
  · rintro rfl
    exact .mapped (map_notices hgroup hinner p)
  · exact .mapped (valueText_notices p)

theorem valueWithin_succ_notices {room : Nat} (hgroup : F.inGroup = false)
    (hinner : F.depth < F.limit → NoticesValues F.deeper (valueWithin room)) :
    NoticesValues F (valueWithin (room + 1)) where
  reads := valueWithin_succ_reads hgroup fun hdepth => (hinner hdepth).reads
  notices p := by
    refine .outsideGroup hgroup (.peekOnLine .pure fun b c hc => .accept ?_)
    exact valueFrom_notices hgroup hinner hc _
  misses p c hc hvisible :=
    .outsideGroup hgroup (.peekOnLineKnown hc hvisible
      (.accept (valueFrom_misses hgroup (fun hdepth => (hinner hdepth).reads) hc hvisible)))

/-- With room for all the containers that may be entered, the problems of a value lie in the
text. -/
theorem valueWithin_notices (room : Nat) (hgroup : F.inGroup = false)
    (hroom : F.limit ≤ F.depth + room) : NoticesValues F (valueWithin (room + 1)) := by
  induction room generalizing F with
  | zero => exact valueWithin_succ_notices hgroup fun hdepth => absurd hdepth (by omega)
  | succ room ih =>
    refine valueWithin_succ_notices hgroup fun _ => ih (F := F.deeper) hgroup ?_
    simp only [Frame.deeper]
    omega

theorem value_notices (hgroup : F.inGroup = false) : NoticesValues F value where
  reads := value_reads hgroup
  notices p := .step (fun _ => rfl) (.asking (fun _ hs => hs.limit)
    ((valueWithin_notices F.limit hgroup (Nat.le_add_left _ _)).notices p))
  misses p c hc hvisible := .asking (fun _ hs => hs.limit)
    ((valueWithin_notices F.limit hgroup (Nat.le_add_left _ _)).misses p c hc hvisible)

end Diagram.Grammar
