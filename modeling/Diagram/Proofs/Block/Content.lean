import Diagram.Proofs.Sound.Block

/-!
What is read of a block. The line of its opening delimiter is divided into runs of characters, and
what follows is searched for the closing delimiter, which ends the block where it occurs first. The
search reads one character at a time and looks ahead behind each that may start the delimiter; an
occurrence that overlaps with what has been looked at is not missed, as nothing of that is consumed.
-/
namespace Diagram.Grammar

variable {π α β σ : Type} {F : Frame π} {p u : List Char}

namespace Ensures

/-- A repetition whose first step goes on. -/
theorem repeating_more {step : σ → Grammar π (Next σ)} {g k : σ} {q : List Char}
    {Q : σ → State π → Prop}
    (h : Ensures (State.At F p []) (step g) fun next s => next = .again k ∧ s.At F q [])
    (hlt : p.length < q.length) (hrest : Ensures (State.At F q []) (repeating step k) Q) :
    Ensures (State.At F p []) (repeating step g) Q := by
  intro s hs
  obtain ⟨hagain, hs'⟩ := h s hs
  rw [repeating_again hagain (hs.left_lt hs' hlt)]
  exact hrest _ hs'

theorem stops {g : σ} {n : Nat} {Q : σ → Nat → Prop} (hn : n ≤ p.length) (hQ : Q g p.length) :
    Ensures (State.At F p []) (Pure.pure (Next.stop g))
      fun next s => ∃ g', next = .stop g' ∧ Onward F n Q g' s :=
  .pure fun _ hs => ⟨g, rfl, p, hn, hs, hQ⟩

end Ensures

/-! ## The line of the opening delimiter -/

theorem run_takes (stops : Char → Bool) (run : List Char) (hu : F.text.drop p.length = u) :
    Ensures (State.At F p []) (repeating (runCharacter stops) (run, false))
      (Onward F p.length fun r j =>
        r = ((u.takeWhile fun c => !stops c).reverse ++ run,
          (u.dropWhile fun c => !stops c).isEmpty) ∧
          F.text.drop j = u.dropWhile fun c => !stops c) := by
  induction u generalizing run p with
  | nil => exact .repeating_once (.peekNothing hu (.stops (Nat.le_refl _) ⟨rfl, hu⟩))
  | cons c u ih =>
    by_cases hc : stops c = true
    · simp only [List.takeWhile_cons, List.dropWhile_cons, hc, Bool.not_true, Bool.false_eq_true,
        if_false]
      refine .repeating_once (.peekNext hu ?_)
      simp only [hc, if_true]
      exact .retreat (.stops (Nat.le_refl _) ⟨rfl, hu⟩)
    · simp only [List.takeWhile_cons, List.dropWhile_cons, hc, Bool.not_false, if_true,
        List.reverse_cons, List.append_assoc]
      refine .repeating_more (k := (c :: run, false)) (q := c :: p) (.peekNext hu ?_) (by simp) ?_
      · simp only [hc, Bool.false_eq_true, if_false]
        exact .accept (.pure fun s hs => ⟨rfl, hs⟩)
      · exact (ih (c :: run) (p := c :: p) (drop_succ hu)).tail (by simp) fun _ _ _ h => h

/-- A run is the longest one without a character that ends it. -/
theorem runUntil_takes (stops : Char → Bool) (hu : F.text.drop p.length = u) :
    Ensures (State.At F p []) (runUntil stops) (Onward F p.length fun r j =>
      r = (u.takeWhile fun c => !stops c, (u.dropWhile fun c => !stops c).isEmpty) ∧
        F.text.drop j = u.dropWhile fun c => !stops c) := by
  refine .mapped (run_takes stops [] hu) fun r j h => ?_
  obtain ⟨rfl, hj⟩ := h
  exact ⟨by simp, hj⟩

/-- How the line of an opening delimiter goes on, and the content of the block behind it: what
follows the blanks up to the first new line among them. -/
def openingOf : List Char → Opening × List Char
  | [] => (.ended, [])
  | c :: u =>
    if isBlank c then
      if c = '\n' then (.newLine, u) else openingOf u
    else (.sameLine, c :: u)

theorem openingOf_split (u : List Char) :
    ∃ b, u = b ++ (openingOf u).2 ∧ ∀ x ∈ b, isBlank x = true := by
  induction u with
  | nil => exact ⟨[], rfl, List.forall_mem_nil _⟩
  | cons c u ih =>
    obtain ⟨b, hu, hb⟩ := ih
    rw [openingOf]
    by_cases hc : isBlank c = true
    · by_cases hline : c = '\n'
      · exact ⟨[c], by rw [if_pos hc, if_pos hline]; rfl, by simpa using hc⟩
      · refine ⟨c :: b, ?_, List.forall_mem_cons.mpr ⟨hc, hb⟩⟩
        simp only [hc, hline, if_true, if_false, List.cons_append]
        exact congrArg (List.cons c) hu
    · exact ⟨[], by simp [hc], List.forall_mem_nil _⟩

theorem opening_skips (hu : F.text.drop p.length = u) :
    Ensures (State.At F p []) opening
      (Onward F p.length fun o j => (o, F.text.drop j) = openingOf u) := by
  rw [opening]
  induction u generalizing p with
  | nil => exact .repeating_once (.peekNothing hu (.stops (Nat.le_refl _) (by rw [hu, openingOf])))
  | cons c u ih =>
    rw [openingOf]
    by_cases hc : isBlank c = true
    · by_cases hline : c = '\n'
      · subst hline
        refine .repeating_once (.peekNext hu (.accept (.stops (p := '\n' :: p) (by simp) ?_)))
        exact congrArg (Prod.mk _) (drop_succ hu)
      · simp only [hc, hline, if_true, if_false]
        refine .repeating_more (k := .sameLine) (q := c :: p) (.peekNext hu ?_) (by simp) ?_
        · simp only [hc, hline, if_true, if_false]
          exact .accept (.pure fun s hs => ⟨rfl, hs⟩)
        · exact (ih (p := c :: p) (drop_succ hu)).tail (by simp) fun _ _ _ h => h
    · simp only [hc, Bool.false_eq_true, if_false]
      refine .repeating_once (.peekNext hu ?_)
      simp only [hc, Bool.false_eq_true, if_false]
      exact .retreat (.stops (Nat.le_refl _) (by rw [hu]))

/-! ## The search for the closing delimiter -/

/-- The first occurrence of `closer` in a text stands between `before` and `after`. -/
structure FirstAt (closer text before after : List Char) : Prop where
  split : text = before ++ (closer ++ after)
  first : ∀ b a, text = b ++ (closer ++ a) → before.length ≤ b.length

theorem FirstAt.here (closer after : List Char) : FirstAt closer (closer ++ after) [] after :=
  ⟨rfl, fun _ _ _ => Nat.zero_le _⟩

theorem FirstAt.cons {closer text before after : List Char} {c : Char}
    (h : FirstAt closer text before after) (hnot : ¬closer <+: c :: text) :
    FirstAt closer (c :: text) (c :: before) after := by
  refine ⟨by rw [h.split, List.cons_append], fun b a hsplit => ?_⟩
  cases b with
  | nil => exact absurd ⟨a, hsplit.symm⟩ hnot
  | cons x b => exact Nat.succ_le_succ (h.first b a (List.cons.inj hsplit).2)

/-- What stands behind the first occurrence does not matter. -/
theorem FirstAt.upTo {closer text before after : List Char} (h : FirstAt closer text before after) :
    FirstAt closer (before ++ closer) before [] := by
  refine ⟨by simp, fun b a hsplit => h.first b (a ++ after) ?_⟩
  rw [h.split, ← List.append_assoc, hsplit]
  simp

/-- A character that may start `closer` stands between `before` and `after`, and the text ends too
early for the rest of `closer`. -/
structure CutAt (closer text before after : List Char) : Prop where
  split : ∃ c ∈ closer.head?, text = before ++ c :: after
  short : after.length + 1 < closer.length

theorem CutAt.cons {closer text before after : List Char} (h : CutAt closer text before after)
    (c : Char) : CutAt closer (c :: text) (c :: before) after := by
  obtain ⟨x, hx, hsplit⟩ := h.split
  exact ⟨⟨x, hx, by rw [hsplit, List.cons_append]⟩, h.short⟩

theorem CutAt.of_cons {closer text before after : List Char} {c : Char}
    (h : CutAt closer (c :: text) before after) :
    (before = [] ∧ after = text ∧ c ∈ closer.head?) ∨
      ∃ b, before = c :: b ∧ CutAt closer text b after := by
  obtain ⟨x, hx, hsplit⟩ := h.split
  cases before with
  | nil =>
    obtain ⟨rfl, rfl⟩ := List.cons.inj hsplit
    exact .inl ⟨rfl, rfl, hx⟩
  | cons y b =>
    obtain ⟨rfl, hbehind⟩ := List.cons.inj hsplit
    exact .inr ⟨b, rfl, ⟨x, hx, hbehind⟩, h.short⟩

/-- The first of these characters stands between `before` and `after`. -/
structure FirstCutAt (closer text before after : List Char) : Prop extends
    CutAt closer text before after where
  first : ∀ b a, CutAt closer text b a → before.length ≤ b.length

theorem FirstCutAt.here {closer text : List Char} {c : Char} (hc : c ∈ closer.head?)
    (hshort : text.length + 1 < closer.length) : FirstCutAt closer (c :: text) [] text :=
  ⟨⟨⟨c, hc, rfl⟩, hshort⟩, fun _ _ _ => Nat.zero_le _⟩

theorem FirstCutAt.cons {closer text before after : List Char} {c : Char}
    (h : FirstCutAt closer text before after) (hnot : ¬CutAt closer (c :: text) [] text) :
    FirstCutAt closer (c :: text) (c :: before) after := by
  refine ⟨h.toCutAt.cons c, fun b a hcut => ?_⟩
  rcases hcut.of_cons with ⟨rfl, rfl, -⟩ | ⟨b, rfl, hbehind⟩
  · exact absurd hcut hnot
  · exact Nat.succ_le_succ (h.first b a hbehind)

/-- A text has one first such character. -/
theorem FirstCutAt.unique {closer text b a b' a' : List Char} (h : FirstCutAt closer text b a)
    (h' : FirstCutAt closer text b' a') : b = b' ∧ a = a' := by
  have hlength : b.length = b'.length :=
    Nat.le_antisymm (h.first b' a' h'.toCutAt) (h'.first b a h.toCutAt)
  obtain ⟨x, -, hx⟩ := h.split
  obtain ⟨y, -, hy⟩ := h'.split
  obtain ⟨hbefore, hbehind⟩ := List.append_inj (hx.symm.trans hy) hlength
  exact ⟨hbefore, (List.cons.inj hbehind).2⟩

/-- What a search in vain for `closer` in `content` gathers behind `text`, with `left` unread. -/
def Gathers (closer content text gathered left : List Char) : Prop :=
  (gathered = content.reverse ++ text ∧ left = [] ∧ ∀ b a, ¬CutAt closer content b a) ∨
    ∃ before, FirstCutAt closer content before left ∧ gathered = before.reverse ++ text

theorem Gathers.nil (closer text : List Char) : Gathers closer [] text text [] := by
  refine .inl ⟨rfl, rfl, fun b a hcut => ?_⟩
  obtain ⟨x, -, hsplit⟩ := hcut.split
  simp at hsplit

theorem Gathers.cons {closer content text gathered left : List Char} {c : Char}
    (h : Gathers closer content (c :: text) gathered left)
    (hnot : ¬CutAt closer (c :: content) [] content) :
    Gathers closer (c :: content) text gathered left := by
  rcases h with ⟨rfl, rfl, hnone⟩ | ⟨before, hfirst, rfl⟩
  · refine .inl ⟨by simp, rfl, fun b a hcut => ?_⟩
    rcases hcut.of_cons with ⟨rfl, rfl, -⟩ | ⟨b, rfl, hbehind⟩
    · exact hnot hcut
    · exact hnone b a hbehind
  · exact .inr ⟨c :: before, hfirst.cons hnot, by simp⟩

/-- What a search for `closer` in `content` leads to, behind `text` and with `left` unread: the text
in front of the first occurrence, or a content that is not closed if there is none. -/
def Found (closer content text : List Char) (result : Content) (left : List Char) : Prop :=
  (∃ before, FirstAt closer content before left ∧ result = ⟨before.reverse ++ text, true⟩) ∨
    ¬closer <:+: content ∧ ∃ gathered, Gathers closer content text gathered left ∧
      result = ⟨gathered, false⟩

/-- Where there is nothing to search, there is nothing to find. -/
theorem Found.nothing {closer : List Char} (hne : closer ≠ []) (text : List Char) :
    Found closer [] text ⟨text, false⟩ [] :=
  .inr ⟨by simpa using hne, text, .nil closer text, rfl⟩

theorem Found.cons {closer content text left : List Char} {c : Char} {result : Content}
    (h : Found closer content (c :: text) result left) (hnot : ¬closer <+: c :: content)
    (hcut : ¬CutAt closer (c :: content) [] content) :
    Found closer (c :: content) text result left := by
  rcases h with ⟨before, hfirst, rfl⟩ | ⟨hmissing, gathered, hgathered, rfl⟩
  · exact .inl ⟨c :: before, hfirst.cons hnot, by simp⟩
  · refine .inr ⟨fun hoccurs => ?_, gathered, hgathered.cons hcut, rfl⟩
    exact (List.infix_cons_iff.mp hoccurs).elim hnot hmissing

/-- How a step of the search goes on from its first character, with `u` behind it. -/
theorem blockCharacter_searches {first c : Char} {rest text : List Char}
    (hu : F.text.drop p.length = c :: u) :
    Ensures (State.At F p []) (blockCharacter first rest ⟨text, false⟩) fun next s =>
      (¬first :: rest <+: c :: u ∧ ¬CutAt (first :: rest) (c :: u) [] u ∧
        next = .again ⟨c :: text, false⟩ ∧ s.At F (c :: p) []) ∨
      (∃ after, c :: u = first :: rest ++ after ∧ next = .stop ⟨text, true⟩ ∧
        s.At F (rest.reverse ++ c :: p) []) ∨
      (FirstCutAt (first :: rest) (c :: u) [] u ∧ next = .stop ⟨text, false⟩ ∧
        s.At F (c :: p) []) := by
  refine .readNext hu (.ite (fun hc => ?_) fun hc => ?_)
  · have hne : first ≠ c := Ne.symm (bne_iff_ne.mp hc)
    refine .pure fun s hs => .inl ⟨fun hstarts => ?_, fun hcut => ?_, rfl, hs⟩
    · exact hne (List.cons_prefix_cons.mp hstarts).1
    · rcases hcut.of_cons with ⟨-, -, hmem⟩ | ⟨b, hb, -⟩
      · exact hne (Option.some.inj hmem)
      · cases hb
  · obtain rfl : c = first := by simpa using hc
    refine .peekManyNext (p := c :: p) (drop_succ hu)
      (fun hlong => .ite (fun hseen => ?_) fun hseen => ?_) fun hshort => ?_
    · rw [hseen]
      refine .accept (.pure fun s hs => .inr (.inl ⟨u.drop rest.length, ?_, rfl, hs⟩))
      rw [List.cons_append, ← congrArg (· ++ u.drop rest.length) hseen, List.take_append_drop]
    · refine .retreat (.pure fun s hs => .inl ⟨fun hstarts => hseen ?_, fun hcut => ?_, rfl, hs⟩)
      · exact (List.prefix_iff_eq_take.mp (List.cons_prefix_cons.mp hstarts).2).symm
      · have hshort := hcut.short
        simp only [List.length_cons] at hshort
        omega
    · -- too little is left for the rest of the delimiter
      refine .pure fun s hs => .inr (.inr ⟨.here (Option.mem_some_self c) ?_, rfl, hs⟩)
      exact Nat.succ_lt_succ hshort

/-- The search finds the first occurrence of the closing delimiter. -/
theorem blockContent_finds (first : Char) (rest text : List Char) (hu : F.text.drop p.length = u) :
    Ensures (State.At F p []) (blockContent first rest text)
      (Onward F p.length fun content j =>
        Found (first :: rest) u text content (F.text.drop j)) := by
  rw [blockContent]
  induction u generalizing p text with
  | nil =>
    refine .repeating_once (.readNothing hu (.stops (Nat.le_refl _) ?_))
    rw [hu]
    exact .nothing (List.cons_ne_nil first rest) text
    -- only a step that starts no closing delimiter, whole or cut off, goes on to the rest
  | cons c u ih =>
    intro s hs
    rcases blockCharacter_searches hu s hs with
      ⟨hnot, hcut, hagain, hs'⟩ | ⟨after, hfound, hstop, hs'⟩ | ⟨hfirst, hstop, hs'⟩
    · rw [repeating_again hagain (hs.left_lt hs' (by simp))]
      obtain ⟨q, hq, hend, hfinds⟩ := ih (c :: text) (p := c :: p) (drop_succ hu) _ hs'
      exact ⟨q, Nat.le_of_succ_le hq, hend, hfinds.cons hnot hcut⟩
    · rw [repeating_stop hstop]
      have hlength : (rest.reverse ++ c :: p).length = p.length + (first :: rest).length := by
        simp
        omega
      refine ⟨_, by omega, hs', .inl ⟨[], ?_, rfl⟩⟩
      rw [hlength, drop_add (hu.trans hfound), hfound]
      exact .here _ _
    · rw [repeating_stop hstop]
      refine ⟨_, by simp, hs', .inr ⟨fun hoccurs => ?_, text, .inr ⟨[], ?_, rfl⟩, rfl⟩⟩
      · have hlength := Nat.lt_of_lt_of_le hfirst.short hoccurs.length_le
        simp at hlength
      · rw [List.length_cons, drop_succ hu]
        exact hfirst

end Diagram.Grammar
