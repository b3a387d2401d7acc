import Diagram.Proofs.Twin.Alike

/-!
The steps of the grammar in two runs side by side. They differ only at the end of the common text,
where the first run finds nothing and the second a new line: `peek` and its kin have a premise for
what the first run does there. Looking on the same line makes no difference.
-/
namespace Diagram

variable {π : Type} {K : Pairing π} {p l : List Char} {s : State Nat} {t : State π}

/-! ## What twins read -/

namespace Twin

/-- At the end of the common text, nothing is left for the first run. -/
theorem drop_eq_unread (h : Twin K p l s t) :
    K.first.text.drop p.length = l.reverse ++ s.reader.unread := by
  rw [← h.first.reader.text, List.append_assoc, List.drop_left' (by simp)]

/-- Looking at the next character: both find the same one, or both find none, or the first run
finds none where the second finds a new line. -/
theorem peek (h : Twin K p l s t) :
    (∃ c r r', s.reader.peek = (some c, r) ∧ t.reader.peek = (some c, r') ∧
      Twin K p (c :: l) { s with reader := r } { t with reader := r' }) ∨
    ∃ r r', s.reader.peek = (none, r) ∧ s.reader.unread = [] ∧
      Twin K p [] { s with reader := r } { t with reader := r'.retreat } ∧
      (K.tail = [] ∧ t.reader.peek = (none, r') ∧
        Twin K p [] { s with reader := r } { t with reader := r' } ∨
      K.tail ≠ [] ∧ t.reader.peek = (some '\n', r')) := by
  have hunread := h.unread_eq
  match hu : s.reader.unread with
  | c :: u =>
    rw [hu] at hunread
    obtain ⟨r, hpeek, hr, hcount⟩ := h.first.reader.peek_cons hu
    obtain ⟨r', hpeek', hr', hcount'⟩ := h.second.reader.peek_cons hunread
    refine .inl ⟨c, r, r', hpeek, hpeek', h.setReader hr hr' (h.counts_max hr.length_le hcount ?_)⟩
    rw [hcount', List.length_append, List.length_cons]
    congr 1
    omega
  | [] =>
    obtain ⟨r, hpeek, hr, hcount⟩ := h.first.reader.peek_nil hu
    by_cases htail : K.tail = []
    · rw [hu, htail] at hunread
      obtain ⟨r', hpeek', hr', hcount'⟩ := h.second.reader.peek_nil hunread
      have hcounts : K.Counts r.count r'.count := by
        refine ⟨fun _ => ?_, fun h => absurd htail h⟩
        rw [hcount, hcount', K.text, htail]
        simp
      exact .inr ⟨r, r', hpeek, rfl,
        h.setReader hr hr'.retreat (by rwa [Reader.count_retreat]),
        .inl ⟨htail, hpeek', h.setReader hr hr' hcounts⟩⟩
    -- the second run has looked at the new line and puts it back
    · obtain ⟨rest, hrest⟩ := K.tail_eq htail
      rw [hu, hrest] at hunread
      obtain ⟨r', hpeek', hr', hcount'⟩ := h.second.reader.peek_cons hunread
      have hcounts : K.Counts r.count r'.retreat.count := by
        refine ⟨fun h => absurd (K.tail_eq_nil h) htail, fun _ => ?_⟩
        have hbound := h.counts.2 htail
        have hblanks := K.add_two_le_bound htail
        have hle := h.length_le
        rw [Reader.count_retreat, hcount', List.length_append]
        omega
      exact .inr ⟨r, r', hpeek, rfl, h.setReader hr hr'.retreat hcounts, .inr ⟨htail, hpeek'⟩⟩

theorem accept (h : Twin K p l s t) :
    Twin K (l ++ p) [] { s with reader := s.reader.accept }
      { t with reader := t.reader.accept } := by
  refine h.setReader h.first.reader.accept ?_ ?_
  · rw [List.append_assoc]
    exact h.second.reader.accept
  · rw [Reader.count_accept, Reader.count_accept]
    exact h.counts

theorem retreat (h : Twin K p l s t) :
    Twin K p [] { s with reader := s.reader.retreat } { t with reader := t.reader.retreat } := by
  refine h.setReader h.first.reader.retreat h.second.reader.retreat ?_
  rw [Reader.count_retreat, Reader.count_retreat]
  exact h.counts

theorem putBack {c : Char} (h : Twin K (c :: p) l s t) (hc : c ≠ '\n') :
    Twin K p [] { s with reader := s.reader.putBack c }
      { t with reader := t.reader.putBack c } := by
  obtain ⟨hr, hcount⟩ := h.first.reader.putBack hc
  obtain ⟨hr', hcount'⟩ := h.second.reader.putBack (p := p ++ K.base) hc
  refine h.setReader hr hr' ?_
  rw [hcount, hcount']
  exact h.counts

theorem peekMany {n : Nat} (h : Twin K p l s t) (hn : n ≤ s.reader.unread.length) :
    ∃ r r', s.reader.peekMany n = (some (s.reader.unread.take n), r) ∧
      t.reader.peekMany n = (some (s.reader.unread.take n), r') ∧
      Twin K p ((s.reader.unread.take n).reverse ++ l) { s with reader := r }
        { t with reader := r' } := by
  have hunread := h.unread_eq
  have hn' : n ≤ t.reader.unread.length := by
    rw [hunread, List.length_append]
    omega
  obtain ⟨r, hmany, hr, hcount⟩ := h.first.reader.peekMany_some n hn
  obtain ⟨r', hmany', hr', hcount'⟩ := h.second.reader.peekMany_some n hn'
  rw [hunread, List.take_append_of_le_length hn] at hmany' hr'
  refine ⟨r, r', hmany, hmany', h.setReader hr hr' (h.counts_max hr.length_le ?_ ?_)⟩
  · rw [hcount]
    simp [Nat.min_eq_left hn]
    omega
  · rw [hcount']
    simp [Nat.min_eq_left hn]
    omega

/-- The second run has asked for no more than it may, and has given up its lookahead. -/
theorem crossed {r : Reader Nat} {r' : Reader π} {l' : List Char} (h : Twin K p l s t)
    (htail : K.tail ≠ []) (hr : r.At K.first.toTape p [])
    (hr' : r'.At K.second.toTape (p ++ K.base) l') (hcount : r'.count ≤ K.bound) :
    Twin K p [] { s with reader := r } { t with reader := r'.retreat } := by
  refine h.setReader hr hr'.retreat ⟨fun h => absurd (K.tail_eq_nil h) htail, fun _ => ?_⟩
  rwa [Reader.count_retreat]

/-- Both runs have come to the end of the source. -/
theorem ended {r : Reader Nat} {r' : Reader π} {p' : List Char} (h : Twin K p l s t)
    (htail : K.tail = []) (hr : r.At K.first.toTape p' [])
    (hr' : r'.At K.second.toTape (p' ++ K.base) []) (hcount : r.count = K.first.text.length)
    (hcount' : r'.count = K.second.text.length) :
    Twin K p' [] { s with reader := r } { t with reader := r' } := by
  refine h.setReader hr hr' ⟨fun _ => ?_, fun h => absurd htail h⟩
  rw [hcount, hcount', K.text, htail]
  simp

/-- Both runs find the next visible character that is left for the first. -/
theorem peekVisible_found (h : Twin K p l s t) {b u : List Char} {c : Char}
    (hu : s.reader.unread = b ++ c :: u) (hb : ∀ x ∈ b, isBlank x = true) (hc : isBlank c = false) :
    ∃ r r', s.reader.peekVisible = (some (c, b.count '\n'), r) ∧
      t.reader.peekVisible = (some (c, b.count '\n'), r') ∧
      Twin K p (c :: (b.reverse ++ l)) { s with reader := r } { t with reader := r' } := by
  have hunread := h.unread_eq
  rw [hu, List.append_assoc, List.cons_append] at hunread
  obtain ⟨r, hpeek, hr, hcount⟩ := h.first.reader.peekVisible_some hu hb hc
  obtain ⟨r', hpeek', hr', hcount'⟩ := h.second.reader.peekVisible_some hunread hb hc
  refine ⟨r, r', hpeek, hpeek', h.setReader hr hr' (h.counts_max hr.length_le ?_ ?_)⟩
  · rw [hcount]
    simp
    omega
  · rw [hcount']
    simp
    omega

/-- Where nothing visible is left for the first run, the second finds nothing either, or a character
behind a new line. -/
theorem peekVisible_missed (h : Twin K p l s t) (hall : ∀ x ∈ s.reader.unread, isBlank x = true) :
    ∃ r r', s.reader.peekVisible = (none, r) ∧
      Twin K p [] { s with reader := r } { t with reader := r'.retreat } ∧
      (t.reader.peekVisible = (none, r') ∧
        Twin K p [] { s with reader := r } { t with reader := r' } ∨
      K.tail ≠ [] ∧ ∃ c n, firstVisible K.tail = some c ∧ 0 < n ∧
        t.reader.peekVisible = (some (c, n), r')) := by
  have hunread := h.unread_eq
  obtain ⟨r, hpeek, hr, hcount⟩ := h.first.reader.peekVisible_none hall
  rcases Reader.blank_or_visible K.tail with hblank | ⟨b, c, v, htail, hb, hc⟩
  · have hall' : ∀ x ∈ t.reader.unread, isBlank x = true := by
      rw [hunread]
      exact fun x hx => (List.mem_append.mp hx).elim (hall x) (hblank x)
    obtain ⟨r', hpeek', hr', hcount'⟩ := h.second.reader.peekVisible_none hall'
    have hcounts : K.Counts r.count r'.count := by
      refine ⟨fun hvoids => ?_, fun _ => ?_⟩
      · rw [hcount, hcount', K.text, K.tail_eq_nil hvoids]
        simp
      · rw [hcount']
        exact K.bound_of_blank hblank
    exact ⟨r, r', hpeek, h.setReader hr hr'.retreat (by rwa [Reader.count_retreat]),
      .inl ⟨hpeek', h.setReader hr hr' hcounts⟩⟩
  -- the second run finds a character behind the new line, and so behind the blanks at the end
  -- of the common text
  · have hne : K.tail ≠ [] := by simp [htail]
    rw [htail, ← List.append_assoc] at hunread
    have hb' : ∀ x ∈ s.reader.unread ++ b, isBlank x = true :=
      fun x hx => (List.mem_append.mp hx).elim (hall x) (hb x)
    obtain ⟨r', hpeek', hr', hcount'⟩ := h.second.reader.peekVisible_some hunread hb' hc
    have hnewlines : 0 < (s.reader.unread ++ b).count '\n' :=
      List.count_pos_iff.mpr (List.mem_append_right _ (K.newline_mem htail hc))
    refine ⟨r, r', hpeek, h.crossed hne hr hr' ?_,
      .inr ⟨hne, c, _, htail ▸ firstVisible_append hb hc, hnewlines, hpeek'⟩⟩
    have hcounted := h.counts.2 hne
    have hbound := K.bound_of_append htail hb
    have hlength := congrArg List.length h.first.reader.text
    simp at hlength
    rw [hcount', List.length_append, List.length_append]
    omega

/-- Looking at the next visible character: both find the same one, or both find none, or the first
run finds none where the second finds one behind a new line. -/
theorem peekVisible (h : Twin K p l s t) :
    (∃ b c u r r', s.reader.unread = b ++ c :: u ∧ (∀ x ∈ b, isBlank x = true) ∧
      isBlank c = false ∧ s.reader.peekVisible = (some (c, b.count '\n'), r) ∧
      t.reader.peekVisible = (some (c, b.count '\n'), r') ∧
      Twin K p (c :: (b.reverse ++ l)) { s with reader := r } { t with reader := r' }) ∨
    ∃ r r', s.reader.peekVisible = (none, r) ∧ (∀ x ∈ s.reader.unread, isBlank x = true) ∧
      Twin K p [] { s with reader := r } { t with reader := r'.retreat } ∧
      (t.reader.peekVisible = (none, r') ∧
        Twin K p [] { s with reader := r } { t with reader := r' } ∨
      K.tail ≠ [] ∧ ∃ c n, firstVisible K.tail = some c ∧ 0 < n ∧
        t.reader.peekVisible = (some (c, n), r')) := by
  rcases Reader.blank_or_visible s.reader.unread with hall | ⟨b, c, u, hu, hb, hc⟩
  · obtain ⟨r, r', hpeek, htwin, hbehind⟩ := h.peekVisible_missed hall
    exact .inr ⟨r, r', hpeek, hall, htwin, hbehind⟩
  · obtain ⟨r, r', hpeek, hpeek', htwin⟩ := h.peekVisible_found hu hb hc
    exact .inl ⟨b, c, u, r, r', hu, hb, hc, hpeek, hpeek', htwin⟩

/-- Consuming the next character. -/
theorem read (h : Twin K p [] s t) :
    (∃ c r r', s.reader.read = (some c, r) ∧ t.reader.read = (some c, r') ∧
      Twin K (c :: p) [] { s with reader := r } { t with reader := r' }) ∨
    ∃ r r', s.reader.read = (none, r) ∧ s.reader.unread = [] ∧ s.At K.first p [] ∧
      r.At K.first.toTape p [] ∧
      (K.tail = [] → t.reader.read = (none, r') ∧
        Twin K p [] { s with reader := r } { t with reader := r' }) := by
  have heq := h.first.reader.read_eq
  have heq' := h.second.reader.read_eq
  rcases h.peek with ⟨c, r, r', hpeek, hpeek', h'⟩ |
    ⟨r, r', hpeek, hu, hcrossed, ⟨htail, hpeek', h'⟩ | ⟨htail, hpeek'⟩⟩
  · exact .inl ⟨c, r.accept, r'.accept, by rw [heq, hpeek], by rw [heq', hpeek'], h'.accept⟩
  · refine .inr ⟨r.accept, r'.accept, by rw [heq, hpeek], hu, h.first, h'.accept.first.reader, ?_⟩
    exact fun _ => ⟨by rw [heq', hpeek'], h'.accept⟩
  · refine .inr ⟨r.accept, r'.accept, by rw [heq, hpeek], hu, h.first,
      hcrossed.accept.first.reader, fun h => absurd h htail⟩

/-- Consuming characters up to the first that is visible. -/
theorem readVisible (h : Twin K p [] s t) :
    (∃ b c r r', isBlank c = false ∧ s.reader.readVisible = (some c, r) ∧
      t.reader.readVisible = (some c, r') ∧
      Twin K (c :: (b ++ p)) [] { s with reader := r } { t with reader := r' }) ∨
    ∃ r r', s.reader.readVisible = (none, r) ∧ (∀ x ∈ s.reader.unread, isBlank x = true) ∧
      r.At K.first.toTape K.first.text.reverse [] ∧
      (K.tail = [] → t.reader.readVisible = (none, r') ∧
        Twin K K.first.text.reverse [] { s with reader := r } { t with reader := r' }) := by
  have hunread := h.unread_eq
  rcases Reader.blank_or_visible s.reader.unread with hall | ⟨b, c, v, hu, hb, hc⟩
  · obtain ⟨r, hread, hr, hcount⟩ := h.first.reader.readVisible_none hall
    have htext : s.reader.unread.reverse ++ p = K.first.text.reverse := by
      simp [← h.first.reader.text]
    rw [htext] at hr
    -- with a text behind, the second run reads on where the first has come to its end
    by_cases htail : K.tail = []
    · rw [htail, List.append_nil] at hunread
      obtain ⟨r', hread', hr', hcount'⟩ := h.second.reader.readVisible_none (hunread ▸ hall)
      rw [hunread, ← List.append_assoc, htext] at hr'
      exact .inr ⟨r, r', hread, hall, hr, fun _ => ⟨hread', h.ended htail hr hr' hcount hcount'⟩⟩
    · exact .inr ⟨r, t.reader, hread, hall, hr, fun h => absurd h htail⟩
  · obtain ⟨r, hread, hr, hcount⟩ := h.first.reader.readVisible_some hu hb hc
    rw [hu, List.append_assoc, List.cons_append] at hunread
    obtain ⟨r', hread', hr', hcount'⟩ := h.second.reader.readVisible_some hunread hb hc
    rw [← List.append_assoc] at hr'
    refine .inl ⟨b.reverse, c, r, r', hc, hread, hread',
      h.setReader hr hr' (h.counts_max hr.length_le ?_ ?_)⟩
    · rw [hcount]
      simp
      omega
    · rw [hcount']
      simp
      omega

/-- At the end of the common text, in front of a new line, the first run does not find characters in
which no line ends. The second does not find them either. -/
theorem peekBeyond {cs : List Char} (h : Twin K p [] s t) (htail : K.tail ≠ []) (hcs : '\n' ∉ cs)
    (hlt : s.reader.unread.length < cs.length)
    (hnear : p.length + cs.length ≤ K.first.text.length + 2) :
    ∃ r r', s.reader.peekMany cs.length = (none, r) ∧
      (t.reader.peekMany cs.length = (none, r') ∧
        Twin K p [] { s with reader := r } { t with reader := r' } ∨
      ∃ seen, seen ≠ cs ∧ t.reader.peekMany cs.length = (some seen, r') ∧
        Twin K p [] { s with reader := r } { t with reader := r'.retreat }) := by
  have hunread := h.unread_eq
  have hbound := h.counts.2 htail
  have htwo := K.add_two_le_bound htail
  obtain ⟨r, hmany, hr, -⟩ := h.first.reader.peekMany_none _ hlt
  -- the second run may find enough characters, but then one of them is the new line
  rcases Nat.lt_or_ge t.reader.unread.length cs.length with hlt' | hge'
  · obtain ⟨r', hmany', hr', hcount'⟩ := h.second.reader.peekMany_none _ hlt'
    refine ⟨r, r', hmany, .inl ⟨hmany', h.setReader hr hr' ⟨fun h => ?_, fun _ => ?_⟩⟩⟩
    · exact absurd (K.tail_eq_nil h) htail
    have hlength := congrArg List.length h.second.reader.text
    simp at hlength
    omega
  · obtain ⟨r', hmany', hr', hcount'⟩ := h.second.reader.peekMany_some _ hge'
    refine ⟨r, r', hmany, .inr ⟨_, fun heq => hcs ?_, hmany', h.crossed htail hr hr' ?_⟩⟩
    · obtain ⟨rest, hrest⟩ := K.tail_eq htail
      rw [← heq, hunread, hrest, List.mem_take_iff_getElem]
      exact ⟨s.reader.unread.length, by simp; omega, by simp⟩
    · simp at hcount'
      omega

end Twin

/-- A state in which the reader has been told that nothing is left. -/
def State.Exhausted (s : State π) : Prop :=
  s.reader.peek = (none, s.reader)

namespace Grammar.Alike

variable {β₁ β₂ : Type} {P : State Nat → State π → Prop} {E : β₁ → State Nat → Prop}
  {Q : β₁ → β₂ → State Nat → State π → Prop}

/-! ## Steps of the reader -/

theorem accept {f₁ : Unit → Grammar Nat β₁} {f₂ : Unit → Grammar π β₂}
    (h : Alike K (Twin K (l ++ p) []) (f₁ ()) (f₂ ()) E Q) :
    Alike K (Twin K p l) (Grammar.accept >>= f₁) (Grammar.accept >>= f₂) E Q :=
  fun _ _ hs => h _ _ hs.accept

theorem retreat {f₁ : Unit → Grammar Nat β₁} {f₂ : Unit → Grammar π β₂}
    (h : Alike K (Twin K p []) (f₁ ()) (f₂ ()) E Q) :
    Alike K (Twin K p l) (Grammar.retreat >>= f₁) (Grammar.retreat >>= f₂) E Q :=
  fun _ _ hs => h _ _ hs.retreat

theorem putBack {c : Char} {f₁ : Unit → Grammar Nat β₁} {f₂ : Unit → Grammar π β₂}
    (hc : c ≠ '\n') (h : Alike K (Twin K p []) (f₁ ()) (f₂ ()) E Q) :
    Alike K (Twin K (c :: p) l) (Grammar.putBack c >>= f₁) (Grammar.putBack c >>= f₂) E Q :=
  fun _ _ hs => h _ _ (hs.putBack hc)

/-- The next character. At the end of the common text, `hend` and `hline` say what is done without
and with a new line behind it. -/
theorem peek {f₁ : Option Char → Grammar Nat β₁} {f₂ : Option Char → Grammar π β₂}
    (hend : K.tail = [] → Alike K (Twin K p []) (f₁ none) (f₂ none) E Q)
    (hline : K.tail ≠ [] → K.first.text.drop p.length = l.reverse →
      Ensures (State.At K.first p []) (f₁ none) (K.Astray E))
    (hsome : ∀ c, Alike K (Twin K p (c :: l)) (f₁ (some c)) (f₂ (some c)) E Q) :
    Alike K (Twin K p l) (Grammar.peek >>= f₁) (Grammar.peek >>= f₂) E Q := by
  intro s t hs
  simp only [Grammar.peek, reading_bind]
  rcases hs.peek with ⟨c, r, r', hpeek, hpeek', h⟩ |
    ⟨r, r', hpeek, hu, h, ⟨htail, hpeek', h'⟩ | ⟨htail, hpeek'⟩⟩
  · rw [hpeek, hpeek']
    exact hsome c _ _ h
  · rw [hpeek, hpeek']
    exact hend htail _ _ h'
  · rw [hpeek]
    exact .inl (hline htail (by rw [hs.drop_eq_unread, hu, List.append_nil]) _ h.first)

/-- Where a new line is left unread and then the same is done as at the end of the text. -/
theorem peekLine {f₁ : Option Char → Grammar Nat β₁} {f₂ : Option Char → Grammar π β₂}
    (hline : f₂ (some '\n') = Grammar.retreat >>= fun _ => f₂ none)
    (hnone : Alike K (Twin K p []) (f₁ none) (f₂ none) E Q)
    (hsome : ∀ c, Alike K (Twin K p (c :: l)) (f₁ (some c)) (f₂ (some c)) E Q) :
    Alike K (Twin K p l) (Grammar.peek >>= f₁) (Grammar.peek >>= f₂) E Q := by
  intro s t hs
  simp only [Grammar.peek, reading_bind]
  rcases hs.peek with ⟨c, r, r', hpeek, hpeek', h⟩ |
    ⟨r, r', hpeek, hu, h, ⟨htail, hpeek', h'⟩ | ⟨htail, hpeek'⟩⟩
  · rw [hpeek, hpeek']
    exact hsome c _ _ h
  · rw [hpeek, hpeek']
    exact hnone _ _ h'
  · rw [hpeek, hpeek', hline]
    exact hnone _ _ h

/-- Where the second run leaves a new line unread and goes on, and the first, which has been told
that nothing is left, would find the same if it went on. -/
theorem peekExhausted {f₁ : Option Char → Grammar Nat β₁} {f₂ : Option Char → Grammar π β₂}
    {g₁ : Grammar Nat β₁} {g₂ : Grammar π β₂}
    (hline : f₂ (some '\n') = Grammar.retreat >>= fun _ => g₂)
    (hsame : ∀ s, s.Exhausted → f₁ none s = g₁ s)
    (hend : Alike K (Twin K p []) (f₁ none) (f₂ none) E Q)
    (hnone : Alike K (Twin K p []) g₁ g₂ E Q)
    (hsome : ∀ c, Alike K (Twin K p [c]) (f₁ (some c)) (f₂ (some c)) E Q) :
    Alike K (Twin K p []) (Grammar.peek >>= f₁) (Grammar.peek >>= f₂) E Q := by
  intro s t hs
  simp only [Grammar.peek, reading_bind]
  rcases hs.peek with ⟨c, r, r', hpeek, hpeek', h⟩ |
    ⟨r, r', hpeek, hu, h, ⟨htail, hpeek', h'⟩ | ⟨htail, hpeek'⟩⟩
  · rw [hpeek, hpeek']
    exact hsome c _ _ h
  · rw [hpeek, hpeek']
    exact hend _ _ h'
  · rw [hpeek, hpeek', hline]
    rw [hsame { s with reader := r } (hs.first.reader.peek_exhausted hpeek)]
    exact hnone _ _ h

/-- The first run has found nothing, the second what is visible behind the new line; left unread,
it makes them twins. -/
def Crossed (K : Pairing π) (p : List Char) (s : State Nat) (t : State π) : Prop :=
  Twin K p [] s { t with reader := t.reader.retreat } ∧
    ∀ x ∈ K.first.text.drop p.length, isBlank x = true

theorem crossedRetreat {g₁ : Grammar Nat β₁} {f₂ : Unit → Grammar π β₂}
    (h : Alike K (Twin K p []) g₁ (f₂ ()) E Q) :
    Alike K (Crossed K p) g₁ (Grammar.retreat >>= f₂) E Q :=
  fun _ _ hs => h _ _ hs.1

theorem crossedStray {g₁ : Grammar Nat β₁} {g₂ : Grammar π β₂}
    (h : (∀ x ∈ K.first.text.drop p.length, isBlank x = true) →
      Ensures (State.At K.first p []) g₁ (K.Astray E)) : Alike K (Crossed K p) g₁ g₂ E Q :=
  fun _ _ hs => .inl (h hs.2 _ hs.1.first)

theorem peekVisible {f₁ : Option (Char × Nat) → Grammar Nat β₁}
    {f₂ : Option (Char × Nat) → Grammar π β₂}
    (hnone : Alike K (Twin K p []) (f₁ none) (f₂ none) E Q)
    (hline : K.tail ≠ [] → ∀ c n, firstVisible K.tail = some c → 0 < n →
      Alike K (Crossed K p) (f₁ none) (f₂ (some (c, n))) E Q)
    (hsome : ∀ b c, isBlank c = false →
      Alike K (Twin K p (c :: b)) (f₁ (some (c, b.count '\n'))) (f₂ (some (c, b.count '\n'))) E Q) :
    Alike K (Twin K p []) (Grammar.peekVisible >>= f₁) (Grammar.peekVisible >>= f₂) E Q := by
  intro s t hs
  simp only [Grammar.peekVisible, reading_bind]
  rcases hs.peekVisible with ⟨b, c, u, r, r', -, -, hc, hpeek, hpeek', h⟩ |
    ⟨r, r', hpeek, hall, h, ⟨hpeek', h'⟩ | ⟨htail, c, n, hfirst, hn, hpeek'⟩⟩
  · rw [hpeek, hpeek', ← List.count_reverse]
    rw [List.append_nil] at h
    exact hsome b.reverse c hc _ _ h
  · rw [hpeek, hpeek']
    exact hnone _ _ h'
  · rw [hpeek, hpeek']
    refine hline htail c n hfirst hn _ _ ⟨h, ?_⟩
    rw [hs.drop_eq_unread]
    simpa using hall

/-- Nothing visible is found on the line at the end of the text and in front of a new line. -/
theorem peekOnLineFound {f₁ : Option Char → Grammar Nat β₁} {f₂ : Option Char → Grammar π β₂}
    (hnone : Alike K (Twin K p []) (f₁ none) (f₂ none) E Q)
    (hsome : ∀ b c, K.first.OnLine (p.length + l.length) c →
      Alike K (Twin K p (c :: (b ++ l))) (f₁ (some c)) (f₂ (some c)) E Q) :
    Alike K (Twin K p l) (Grammar.peekOnLine >>= f₁) (Grammar.peekOnLine >>= f₂) E Q := by
  simp only [Grammar.peekOnLine, bind_assoc]
  intro s t hs
  simp only [Grammar.peekVisible, reading_bind]
  rcases hs.peekVisible with ⟨b, c, u, r, r', hu, hb, hc, hpeek, hpeek', h⟩ |
    ⟨r, r', hpeek, hall, h, ⟨hpeek', h'⟩ | ⟨htail, c, n, hfirst, hn, hpeek'⟩⟩
  · rw [hpeek, hpeek']
    rcases Nat.eq_zero_or_pos (b.count '\n') with h0 | h0
    · simp only [h0, if_true]
      refine hsome b.reverse c ⟨b, u, ?_, hb, List.count_eq_zero.mp h0, hc⟩ _ _ h
      rw [← hs.first.reader.unread_eq, hu]
    · simp only [Nat.ne_of_gt h0, if_false]
      exact hnone _ _ h.retreat
  · rw [hpeek, hpeek']
    exact hnone _ _ h'
  · rw [hpeek, hpeek']
    simp only [Nat.ne_of_gt hn, if_false]
    exact hnone _ _ h

theorem peekOnLine {f₁ : Option Char → Grammar Nat β₁} {f₂ : Option Char → Grammar π β₂}
    (hnone : Alike K (Twin K p []) (f₁ none) (f₂ none) E Q)
    (hsome : ∀ b c, isBlank c = false →
      Alike K (Twin K p (c :: (b ++ l))) (f₁ (some c)) (f₂ (some c)) E Q) :
    Alike K (Twin K p l) (Grammar.peekOnLine >>= f₁) (Grammar.peekOnLine >>= f₂) E Q :=
  .peekOnLineFound hnone fun b c ⟨_, _, _, _, _, hc⟩ => hsome b c hc

theorem read {f₁ : Option Char → Grammar Nat β₁} {f₂ : Option Char → Grammar π β₂}
    (hend : K.tail = [] → Alike K (Twin K p []) (f₁ none) (f₂ none) E Q)
    (hline : K.tail ≠ [] → Ensures (State.At K.first p []) (f₁ none) (K.Astray E))
    (hsome : ∀ c, Alike K (Twin K (c :: p) []) (f₁ (some c)) (f₂ (some c)) E Q) :
    Alike K (Twin K p []) (Grammar.read >>= f₁) (Grammar.read >>= f₂) E Q := by
  intro s t hs
  simp only [Grammar.read, reading_bind]
  rcases hs.read with ⟨c, r, r', hread, hread', h⟩ | ⟨r, r', hread, hu, hat, hr, h⟩
  · rw [hread, hread']
    exact hsome c _ _ h
  · rw [hread]
    by_cases htail : K.tail = []
    · obtain ⟨hread', h'⟩ := h htail
      rw [hread']
      exact hend htail _ _ h'
    · exact .inl (hline htail _ (hat.setReader hr))

theorem readVisible {f₁ : Option Char → Grammar Nat β₁} {f₂ : Option Char → Grammar π β₂}
    (hend : K.tail = [] → Alike K (Twin K K.first.text.reverse []) (f₁ none) (f₂ none) E Q)
    (hline : K.tail ≠ [] → (∀ x ∈ K.first.text.drop p.length, isBlank x = true) →
      Ensures (State.At K.first K.first.text.reverse []) (f₁ none) (K.Astray E))
    (hsome : ∀ b c, isBlank c = false →
      Alike K (Twin K (c :: (b ++ p)) []) (f₁ (some c)) (f₂ (some c)) E Q) :
    Alike K (Twin K p []) (Grammar.readVisible >>= f₁) (Grammar.readVisible >>= f₂) E Q := by
  intro s t hs
  simp only [Grammar.readVisible, reading_bind]
  rcases hs.readVisible with ⟨b, c, r, r', hc, hread, hread', h⟩ | ⟨r, r', hread, hall, hr, h⟩
  · rw [hread, hread']
    exact hsome b c hc _ _ h
  · rw [hread]
    by_cases htail : K.tail = []
    · obtain ⟨hread', h'⟩ := h htail
      rw [hread']
      exact hend htail _ _ h'
    · refine .inl (hline htail ?_ _ (hs.first.setReader hr))
      rw [hs.drop_eq_unread]
      simpa using hall

/-- Several characters at once. At the end of the common text, only the first run is looked at. -/
theorem peekMany {n : Nat} {f₁ : Option (List Char) → Grammar Nat β₁}
    {f₂ : Option (List Char) → Grammar π β₂}
    (hend : K.tail = [] → Alike K (Twin K p []) (f₁ none) (f₂ none) E Q)
    (hline : K.tail ≠ [] → Ensures (State.At K.first p []) (f₁ none) (K.Astray E))
    (hsome : ∀ cs, Alike K (Twin K p (cs.reverse ++ l)) (f₁ (some cs)) (f₂ (some cs)) E Q) :
    Alike K (Twin K p l) (Grammar.peekMany n >>= f₁) (Grammar.peekMany n >>= f₂) E Q := by
  intro s t hs
  simp only [Grammar.peekMany, reading_bind]
  rcases Nat.lt_or_ge s.reader.unread.length n with hn | hn
  · obtain ⟨r, hmany, hr, hcount⟩ := hs.first.reader.peekMany_none n hn
    rw [hmany]
    by_cases htail : K.tail = []
    · have hn' : t.reader.unread.length < n := by
        rw [hs.unread_eq, htail, List.append_nil]
        exact hn
      obtain ⟨r', hmany', hr', hcount'⟩ := hs.second.reader.peekMany_none n hn'
      rw [hmany']
      exact hend htail _ _ (hs.ended htail hr hr' hcount hcount')
    · exact .inl (hline htail _ (hs.first.setReader hr))
  · obtain ⟨r, r', hmany, hmany', h⟩ := hs.peekMany hn
    rw [hmany, hmany']
    exact hsome _ _ _ h

/-- Characters in which no line ends, if the text goes on with them. They are not found at the end
of the common text, but looking for them may lead too far behind it. -/
theorem acceptExactly {cs : List Char} {f₁ : Bool → Grammar Nat β₁} {f₂ : Bool → Grammar π β₂}
    (hcs : '\n' ∉ cs)
    (hyes : Alike K (Twin K (cs.reverse ++ p) []) (f₁ true) (f₂ true) E Q)
    (hno : Alike K (Twin K p []) (f₁ false) (f₂ false) E Q)
    (hfar : K.tail ≠ [] → K.first.text.length + 2 < p.length + cs.length →
      Ensures (State.At K.first p []) (f₁ false) (K.Astray E)) :
    Alike K (Twin K p []) (Grammar.acceptExactly cs >>= f₁) (Grammar.acceptExactly cs >>= f₂)
      E Q := by
  simp only [Grammar.acceptExactly, bind_assoc]
  -- near the end of the common text the second run may see the new line, which is not in `cs`
  by_cases hnear : K.tail ≠ [] ∧ p.length + cs.length ≤ K.first.text.length + 2
  · obtain ⟨htail, hnear⟩ := hnear
    intro s t hs
    simp only [Grammar.peekMany, reading_bind]
    rcases Nat.lt_or_ge s.reader.unread.length cs.length with hlt | hge
    · obtain ⟨r, r', hmany, ⟨hmany', h⟩ | ⟨seen, hne, hmany', h⟩⟩ :=
        hs.peekBeyond htail hcs hlt hnear
      · rw [hmany, hmany']
        exact hno _ _ h
      · rw [hmany, hmany']
        simp only [hne, if_false]
        exact hno _ _ h
    · obtain ⟨r, r', hmany, hmany', h⟩ := hs.peekMany hge
      rw [hmany, hmany']
      by_cases hseen : s.reader.unread.take cs.length = cs
      · simp only [hseen, if_true]
        rw [hseen, List.append_nil] at h
        exact hyes _ _ h.accept
      · simp only [hseen, if_false]
        exact hno _ _ h.retreat
  · refine .peekMany (fun _ => hno) (fun htail => hfar htail ?_) fun seen => ?_
    · exact Nat.lt_of_not_le fun h => hnear ⟨htail, h⟩
    · by_cases hseen : seen = cs
      · subst hseen
        simpa using Alike.accept (l := seen.reverse) hyes
      · simpa [hseen] using Alike.retreat (l := seen.reverse) hno

/-! ## What is known to come next -/

/-- What has been looked at first is the next character of the text. -/
theorem known {c : Char} {g₁ : Grammar Nat β₁} {g₂ : Grammar π β₂}
    (h : K.first.text[p.length]? = some c → Alike K (Twin K p (l ++ [c])) g₁ g₂ E Q) :
    Alike K (Twin K p (l ++ [c])) g₁ g₂ E Q := by
  intro s t hs
  refine h ?_ s t hs
  simp [← hs.first.reader.text]

/-- The character consumed last was the next one of the text. -/
theorem known_of_consumed {c : Char} {g₁ : Grammar Nat β₁} {g₂ : Grammar π β₂}
    (h : K.first.text[p.length]? = some c → Alike K (Twin K (c :: p) l) g₁ g₂ E Q) :
    Alike K (Twin K (c :: p) l) g₁ g₂ E Q := by
  intro s t hs
  exact h (Reader.At.known (b := []) hs.first.reader) s t hs

/-- A character that is known to come next is found there. -/
theorem peekKnown {c : Char} {f₁ : Option Char → Grammar Nat β₁} {f₂ : Option Char → Grammar π β₂}
    (hc : K.first.text[p.length]? = some c)
    (h : Alike K (Twin K p [c]) (f₁ (some c)) (f₂ (some c)) E Q) :
    Alike K (Twin K p []) (Grammar.peek >>= f₁) (Grammar.peek >>= f₂) E Q := by
  intro s t hs
  obtain ⟨u, hu⟩ := hs.first.reader.unread_of_known hc
  obtain ⟨r₀, hpeek₀, -, -⟩ := hs.first.reader.peek_cons hu
  simp only [Grammar.peek, reading_bind]
  rcases hs.peek with ⟨x, r, r', hpeek, hpeek', h'⟩ | ⟨r, r', hpeek, hnil, -⟩
  · obtain rfl : x = c := by
      rw [hpeek₀] at hpeek
      exact (Option.some.inj (Prod.ext_iff.mp hpeek).1).symm
    rw [hpeek, hpeek']
    exact h _ _ h'
  · rw [hnil] at hu
    cases hu

end Grammar.Alike

end Diagram
