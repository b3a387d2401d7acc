import Diagram.Proofs.Sound.Parse
import Diagram.Proofs.Truncation.Balanced

/-!
Where skipping stops. Of a container that is nested too deep, the shortest text is skipped in which
one bracket more of its kind is closed than opened, whatever else stands in it. If no text behind
its bracket is like that, everything up to the end of the source is skipped, and the container is
reported as open.
-/
namespace Diagram

/-! ## Brackets that are closed -/

/-- In a text, `n` brackets more are closed than opened. -/
def Surplus (opening closing : Char) (n : Nat) (cs : List Char) : Prop :=
  cs.count closing = cs.count opening + n

instance (opening closing : Char) (n : Nat) (cs : List Char) :
    Decidable (Surplus opening closing n cs) :=
  inferInstanceAs (Decidable (_ = _))

/-- `before` is the shortest prefix of a text in which `n` brackets more are closed than opened, and
`after` stands behind it. -/
structure ClosesAt (opening closing : Char) (n : Nat) (text before after : List Char) : Prop where
  split : text = before ++ after
  closed : Surplus opening closing n before
  shortest : ∀ a, a <+: text → Surplus opening closing n a → before.length ≤ a.length

section

variable {opening closing c : Char} {m n : Nat} {text before after : List Char}

theorem not_surplus_nil (hn : 0 < n) : ¬Surplus opening closing n [] := by
  simp only [Surplus, List.count_nil]
  omega

theorem ClosesAt.starts (h : ClosesAt opening closing n text before after) : before <+: text :=
  ⟨after, h.split.symm⟩

/-- A text has one shortest prefix of this kind. -/
theorem ClosesAt.unique {before' after' : List Char}
    (h : ClosesAt opening closing n text before after)
    (h' : ClosesAt opening closing n text before' after') : before = before' ∧ after = after' := by
  have hlength : before.length = before'.length :=
    Nat.le_antisymm (h.shortest before' h'.starts h'.closed) (h'.shortest before h.starts h.closed)
  exact List.append_inj (h.split.symm.trans h'.split) hlength

/-- It is enough to look at the shorter prefixes of the one that is found. -/
theorem ClosesAt.of_take (hclosed : Surplus opening closing n before)
    (hshorter : ∀ k < before.length, ¬Surplus opening closing n (before.take k)) :
    ClosesAt opening closing n (before ++ after) before after := by
  refine ⟨rfl, hclosed, ?_⟩
  intro a hstarts ha
  by_cases hlt : a.length < before.length
  · rw [List.prefix_iff_eq_take.mp hstarts, List.take_append_of_le_length (Nat.le_of_lt hlt)] at ha
    exact absurd ha (hshorter a.length hlt)
  · exact Nat.le_of_not_lt hlt

/-- A prefix with a surplus has a first character, and behind that the surplus which is left. -/
theorem Surplus.of_cons (hn : 0 < n)
    (hc : ∀ cs, Surplus opening closing n (c :: cs) ↔ Surplus opening closing m cs) {a : List Char}
    (hstarts : a <+: c :: text) (ha : Surplus opening closing n a) :
    ∃ b, a = c :: b ∧ b <+: text ∧ Surplus opening closing m b := by
  cases a with
  | nil => exact absurd ha (not_surplus_nil hn)
  | cons x b =>
    obtain ⟨rfl, hbehind⟩ := List.cons_prefix_cons.mp hstarts
    exact ⟨b, rfl, hbehind, (hc b).mp ha⟩

theorem ClosesAt.cons (hn : 0 < n)
    (hc : ∀ cs, Surplus opening closing n (c :: cs) ↔ Surplus opening closing m cs)
    (h : ClosesAt opening closing m text before after) :
    ClosesAt opening closing n (c :: text) (c :: before) after := by
  refine ⟨by rw [h.split, List.cons_append], (hc before).mpr h.closed, ?_⟩
  intro a hstarts ha
  obtain ⟨b, rfl, hbehind, hb⟩ := ha.of_cons hn hc hstarts
  exact Nat.succ_le_succ (h.shortest b hbehind hb)

end

namespace Grammar

variable {π : Type} {F : Frame π} {opening closing c : Char} {m n : Nat} {p u : List Char}
  {s : State π}

/-- Where skipping goes on behind a character,
it counts the brackets that are still to be closed. -/
theorem skipped_again (hn : 0 < n) (h : skipped opening closing n c = .again m) :
    0 < m ∧ ∀ cs, Surplus opening closing n (c :: cs) ↔ Surplus opening closing m cs := by
  by_cases hopening : c = opening
  · subst hopening
    rw [skipped, if_pos rfl] at h
    obtain rfl : n + 1 = m := Next.again.inj h
    refine ⟨Nat.succ_pos n, fun cs => ?_⟩
    by_cases hsame : c = closing
    · -- a bracket that is its own opposite is never closed: neither side has a surplus
      subst hsame
      simp only [Surplus]
      omega
    · simp only [Surplus, List.count_cons_self, List.count_cons_of_ne hsame]
      omega
  by_cases hclosing : c = closing
  · subst hclosing
    rw [skipped, if_neg hopening, if_pos rfl] at h
    by_cases hlast : n - 1 = 0
    · rw [if_pos hlast] at h
      cases h
    · rw [if_neg hlast] at h
      obtain rfl : n - 1 = m := Next.again.inj h
      refine ⟨Nat.pos_of_ne_zero hlast, fun cs => ?_⟩
      simp only [Surplus, List.count_cons_self, List.count_cons_of_ne hopening]
      omega
  · rw [skipped, if_neg hopening, if_neg hclosing] at h
    obtain rfl : n = m := Next.again.inj h
    refine ⟨hn, fun cs => ?_⟩
    simp only [Surplus, List.count_cons_of_ne hopening, List.count_cons_of_ne hclosing]

/-- Skipping stops at the bracket that closes the last one open. -/
theorem skipped_stop (hn : 0 < n) (h : skipped opening closing n c = .stop m) :
    m = 0 ∧ Surplus opening closing n [c] := by
  by_cases hopening : c = opening
  · rw [skipped, if_pos hopening] at h
    cases h
  by_cases hclosing : c = closing
  · subst hclosing
    rw [skipped, if_neg hopening, if_pos rfl] at h
    by_cases hlast : n - 1 = 0
    · rw [if_pos hlast] at h
      refine ⟨(Next.stop.inj h).symm, ?_⟩
      simp only [Surplus, List.count_cons_self, List.count_cons_of_ne hopening, List.count_nil]
      omega
    · rw [if_neg hlast] at h
      cases h
  · rw [skipped, if_neg hopening, if_neg hclosing] at h
    cases h

/-- How skipping that starts inside `n` brackets, behind `p` and in front of `u`, comes to an end:
with how many brackets open, and in which state. -/
inductive SkipEnds (F : Frame π) (opening closing : Char) (n : Nat) (p u : List Char) :
    Nat → State π → Prop
  /-- Where all brackets are closed. -/
  | closed {before after : List Char} {s : State π} (h : ClosesAt opening closing n u before after)
    (hs : s.At F (before.reverse ++ p) []) : SkipEnds F opening closing n p u 0 s
  /-- At the end of the source. -/
  | unclosed {m : Nat} {s : State π} (hm : 0 < m)
    (hnone : ∀ a, a <+: u → ¬Surplus opening closing n a) (hs : s.At F (u.reverse ++ p) [])
    (hreach : s.reader.reach = F.mark F.text.length) : SkipEnds F opening closing n p u m s

theorem SkipEnds.cons (hn : 0 < n)
    (hc : ∀ cs, Surplus opening closing n (c :: cs) ↔ Surplus opening closing m cs) {k : Nat}
    (h : SkipEnds F opening closing m (c :: p) u k s) :
    SkipEnds F opening closing n p (c :: u) k s := by
  cases h with
  | closed h hs => exact .closed (h.cons hn hc) (by simpa using hs)
  | unclosed hm hnone hs hreach =>
    refine .unclosed hm ?_ (by simpa using hs) hreach
    intro a hstarts ha
    obtain ⟨b, -, hbehind, hb⟩ := ha.of_cons hn hc hstarts
    exact hnone b hbehind hb

/-- Skipping never closes a bracket that is not open, and comes to an end. -/
theorem skipping_ends (hn : 0 < n) (hs : s.At F p []) (hu : F.text.drop p.length = u) :
    ∃ k s', repeating (skipCharacter opening closing) n s = (k, s') ∧
      SkipEnds F opening closing n p u k s' ∧ s'.problems = s.problems := by
  -- the text shrinks by a character, and the number of open brackets goes up or down with it
  induction u generalizing n p s with
  | nil =>
    obtain ⟨r, hread, hr, hcount⟩ := hs.reader.read_nil (unread_of_drop hs hu)
    have hstep : skipCharacter opening closing n s = (.stop n, { s with reader := r }) := by
      rw [skipCharacter, read, reading_bind, hread]
      rfl
    have hreach : r.reach = F.mark F.text.length := hcount ▸ hr.reachMark
    have hnone : ∀ a, a <+: [] → ¬Surplus opening closing n a := by
      intro a hstarts
      rw [List.prefix_nil.mp hstarts]
      exact not_surplus_nil hn
    exact ⟨n, _, repeating_stopped hstep, .unclosed hn hnone (hs.setReader hr) hreach, rfl⟩
  | cons c u ih =>
    cases hnext : skipped opening closing n c with
    | again m =>
      obtain ⟨hm, hc⟩ := skipped_again hn hnext
      obtain ⟨s₁, hs₁, hproblems₁, hrest⟩ := SkipsOver.character hn hnext p s u hs hu
      obtain ⟨k, s', hskip, hends, hproblems⟩ := ih hm hs₁ (drop_succ hu)
      exact ⟨k, s', hrest.trans hskip, hends.cons hn hc, hproblems.trans hproblems₁⟩
    | stop m =>
      obtain ⟨rfl, hclosed⟩ := skipped_stop hn hnext
      obtain ⟨r, hread, hr, -⟩ := hs.reader.read_cons (unread_of_drop hs hu)
      have hstep := skipCharacter_eq opening closing hn hread
      rw [hnext] at hstep
      have hcloses : ClosesAt opening closing n (c :: u) [c] u := by
        refine .of_take hclosed fun k hk => ?_
        rw [Nat.lt_one_iff.mp hk]
        exact not_surplus_nil hn
      exact ⟨0, _, repeating_stopped hstep, .closed hcloses (hs.setReader hr), rfl⟩

/-- The text `taken` behind `p` has been skipped from `s` to `s'`, where `found` has been noticed on
the way, latest first. What stands behind it is unread, and the levels are what they were. -/
structure SkippedText (F : Frame π) (p taken : List Char) (found : List (Problem π))
    (s s' : State π) : Prop where
  stands : s'.At F (taken.reverse ++ p) []
  unread : s.reader.unread = taken ++ s'.reader.unread
  problems : s'.problems = found ++ s.problems
  depth : s'.depth = s.depth
  inGroup : s'.inGroup = s.inGroup

theorem SkippedText.of_at {taken after : List Char} {found : List (Problem π)} {s' : State π}
    (hs : s.At F p []) (hs' : s'.At F (taken.reverse ++ p) [])
    (htaken : s.reader.unread = taken ++ after) (hproblems : s'.problems = found ++ s.problems) :
    SkippedText F p taken found s s' := by
  refine ⟨hs', ?_, hproblems, hs'.depth.trans hs.depth.symm, hs'.inGroup.trans hs.inGroup.symm⟩
  have hbehind : F.text.drop (p.length + taken.length) = after :=
    drop_add (hs.reader.unread_eq.symm.trans htaken)
  rw [htaken, hs'.reader.unread_eq, List.length_append, List.length_reverse, List.length_nil,
    Nat.add_zero, Nat.add_comm, hbehind]

/-- A container whose bracket stands behind `p` is skipped from `s` to `s'`: up to where its bracket
is closed, and it is noticed that it is nested too deep, or else up to the end of the source, and it
is noticed too that it is `unterminated`. -/
structure StopsAtBalance (F : Frame π) (p : List Char) (opening closing : Char)
    (unterminated : Cause) (s s' : State π) : Prop where
  closed : (∃ a, a <+: s.reader.unread ∧ Surplus opening closing 1 a) →
    ∃ before after, ClosesAt opening closing 1 s.reader.unread before after ∧
      SkippedText F (opening :: p) before
        [⟨.nestingTooDeep, .place (F.mark p.length), F.mark (p.length + 1)⟩] s s'
  unclosed : (¬∃ a, a <+: s.reader.unread ∧ Surplus opening closing 1 a) →
    SkippedText F (opening :: p) s.reader.unread
      [⟨unterminated, .place (F.mark p.length), F.mark F.text.length⟩,
        ⟨.nestingTooDeep, .place (F.mark p.length), F.mark (p.length + 1)⟩] s s'

/-- The two ways in which skipping ends, told apart by the text behind the bracket. -/
theorem skipContainer_stops (opening closing : Char) (unterminated : Cause)
    (hs : s.At F (opening :: p) []) :
    StopsAtBalance F p opening closing unterminated s
      (skipContainer (F.mark p.length) opening closing unterminated s).2 := by
  obtain ⟨s₁, hs₁, hproblems₁, hcontainer⟩ :=
    skipContainer_notices_first opening closing unterminated (F.mark p.length) hs
  have hunread : F.text.drop (opening :: p).length = s.reader.unread := hs.reader.unread_eq.symm
  obtain ⟨k, s₂, hskip, hends, hproblems₂⟩ := skipping_ends Nat.one_pos hs₁ hunread
  rw [hcontainer k s₂ hskip]
  have hproblems := hproblems₂.trans hproblems₁
  cases hends with
  | closed h hs₂ =>
    exact ⟨fun _ => ⟨_, _, h, .of_at hs hs₂ h.split hproblems⟩,
      fun hnone => absurd ⟨_, h.starts, h.closed⟩ hnone⟩
  | unclosed hk hnone hs₂ hreach =>
    refine ⟨fun ⟨a, hstarts, ha⟩ => absurd ha (hnone a hstarts), fun _ => ?_⟩
    rw [bne_iff_ne.mpr (Nat.ne_of_gt hk)]
    refine .of_at hs (Ensures.reportToReach_stays s₂ hs₂) (List.append_nil _).symm ?_
    -- what is delivered by then is the whole text
    show ⟨unterminated, .place (F.mark p.length), s₂.reader.reach⟩ :: s₂.problems = _
    rw [hreach, hproblems]
    rfl

/-- At a limit that lets no container in, the first character of a source can be read. -/
theorem exists_state_at_limit (c : Char) (rest : List Char) :
    ∃ s : State Nat, s.At (.ofSource .index Meter.index_lawful (deliveries (c :: rest)) 0) [c] [] ∧
      s.reader.unread = rest := by
  have hstart := State.ofSource_at Meter.index_lawful (deliveries (c :: rest)) 0
  have hunread := hstart.reader.unread_eq.trans (delivered_deliveries (c :: rest))
  obtain ⟨r, -, hr, -⟩ := hstart.reader.read_cons hunread
  exact ⟨_, hstart.setReader hr, hstart.reader.unread_of_read hunread hr⟩

/-- **Skipping stops at the balancing bracket**: behind its bracket, a container is skipped over the
shortest text in which one bracket more of its kind is closed than opened, and nothing is noticed
but that it is nested too deep. If there is no such text, the source is skipped to its end, and it
is noticed that the container is open, from its bracket to that end.
Sequences and maps at the limit are read so. -/
theorem skipping_stops_at_balance [DecidableEq π] (value : Grammar π (Option (Value (Span π))))
    (F : Frame π) (p : List Char) (s : State π) :
    (∀ opening closing unterminated, s.At F (opening :: p) [] →
      StopsAtBalance F p opening closing unterminated s
        (skipContainer (F.mark p.length) opening closing unterminated s).2) ∧
    (F.limit ≤ F.depth → s.At F ('[' :: p) [] →
      StopsAtBalance F p '[' ']' .unterminatedArray s (sequence value s).2) ∧
    (F.limit ≤ F.depth → F.inGroup = false → s.At F ('{' :: p) [] →
      StopsAtBalance F p '{' '}' .unterminatedMap s (map value s).2) := by
  refine ⟨fun opening closing unterminated => skipContainer_stops opening closing unterminated,
    fun hdeep hs => ?_, fun hdeep hgroup hs => ?_⟩
  · rw [sequence_deep value hdeep hs]
    exact skipContainer_stops '[' ']' .unterminatedArray hs
  · rw [map_deep value hgroup hdeep hs]
    exact skipContainer_stops '{' '}' .unterminatedMap hs

/-- A sequence inside a sequence that is skipped is open at the end of the source,
as is the one around both. -/
example : (parseText "" "a: [[1, [2]" { maxDepth := 1 }).diagnostics.map (·.code) =
    [.nestingTooDeep, .unterminatedArray, .unterminatedArray] := by decide +kernel

/-- A sequence with another one and a bracket of the other kind inside. -/
def closedSequence : List Char := "[a [b] \x7b]\x7d c]".toList

/-- A map that is open at the end of the source. -/
def openMap : List Char := "\x7ba: \x7bb\x7d".toList

/-- The bracket that closes an inner sequence is not the end, and the other kind is not counted. -/
theorem skipping_stops_at_balance_mixed :
    (∃ s : State Nat,
      s.At (.ofSource .index Meter.index_lawful (deliveries closedSequence) 0) ['['] [] ∧
      ∀ s' ∈ [(skipContainer 0 '[' ']' .unterminatedArray s).2, (sequence value s).2],
        s'.reader.unread = "\x7d c]".toList ∧
          s'.problems = ⟨.nestingTooDeep, .place 0, 1⟩ :: s.problems) ∧
    ∃ s : State Nat, s.At (.ofSource .index Meter.index_lawful (deliveries openMap) 0) ['{'] [] ∧
      let s' := (map value s).2
      s'.reader.unread = [] ∧ s'.problems =
        ⟨.unterminatedMap, .place 0, 7⟩ :: ⟨.nestingTooDeep, .place 0, 1⟩ :: s.problems := by
  constructor
  · obtain ⟨s, hs, hunread⟩ := exists_state_at_limit '[' ("a [b] \x7b]".toList ++ "\x7d c]".toList)
    have hfirst : ClosesAt '[' ']' 1 s.reader.unread "a [b] \x7b]".toList "\x7d c]".toList := by
      rw [hunread]
      exact .of_take (by decide) (by decide)
    refine ⟨s, hs, fun s' hmem => ?_⟩
    have hbalance : StopsAtBalance
        (.ofSource .index Meter.index_lawful (deliveries closedSequence) 0) [] '[' ']'
        .unterminatedArray s s' := by
      rw [List.mem_cons, List.mem_singleton] at hmem
      rcases hmem with rfl | rfl
      · exact (skipping_stops_at_balance value _ _ s).1 '[' ']' .unterminatedArray hs
      · exact (skipping_stops_at_balance value _ _ s).2.1 (by decide) hs
    obtain ⟨before, after, hcloses, hskipped⟩ := hbalance.closed ⟨_, hfirst.starts, hfirst.closed⟩
    obtain ⟨rfl, -⟩ := hfirst.unique hcloses
    exact ⟨(List.append_cancel_left (hunread.symm.trans hskipped.unread)).symm, hskipped.problems⟩
  · obtain ⟨s, hs, hunread⟩ := exists_state_at_limit '{' "a: \x7bb\x7d".toList
    have hnone : ¬∃ a, a <+: s.reader.unread ∧ Surplus '{' '}' 1 a := by
      rintro ⟨a, hstarts, ha⟩
      rw [hunread] at hstarts
      -- what is left has six characters, so that its starts can be gone through
      have hshort : ∀ k ≤ 6, ¬Surplus '{' '}' 1 ("a: \x7bb\x7d".toList.take k) := by decide
      exact hshort a.length hstarts.length_le (List.prefix_iff_eq_take.mp hstarts ▸ ha)
    have hstops := (skipping_stops_at_balance value _ _ s).2.2 (by decide) (by decide) hs
    have hskipped := hstops.unclosed hnone
    exact ⟨s, hs, by simpa using hskipped.unread, hskipped.problems⟩

end Grammar

end Diagram
