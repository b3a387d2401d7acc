import Diagram.Proofs.Separator.Basic

/-!
The steps of the grammar in two runs side by side, the second of which has a semicolon behind the
text. Steps that look ahead have a premise for the end of the text, where the first run finds
nothing and the second finds the semicolon. Where a problem is reported, there is nothing more to
compare.
-/
namespace Diagram

variable {S : Seam} {p l : List Char} {s t : State Nat}

/-! ## What both readers find -/

namespace Seam.Beside

/-- Looking at the next character: both find the same one, or the first finds none where the second
finds the semicolon. -/
theorem peek (h : S.Beside p l s t) :
    (∃ c r r', s.reader.peek = (some c, r) ∧ t.reader.peek = (some c, r') ∧
      S.Beside p (c :: l) { s with reader := r } { t with reader := r' }) ∨
    ∃ r r', s.reader.peek = (none, r) ∧ t.reader.peek = (some ';', r') ∧
      S.Aside p l { s with reader := r } { t with reader := r' } := by
  have hunread := h.unread_eq
  match hu : s.reader.unread with
  | c :: u =>
    rw [hu] at hunread
    obtain ⟨r, hpeek, hr, -⟩ := h.first.reader.peek_cons hu
    obtain ⟨r', hpeek', hr', -⟩ := h.second.reader.peek_cons hunread
    exact .inl ⟨c, r, r', hpeek, hpeek', h.setReader hr hr'⟩
  | [] =>
    rw [hu] at hunread
    obtain ⟨r, hpeek, hr, -⟩ := h.first.reader.peek_nil hu
    obtain ⟨r', hpeek', hr', -⟩ := h.second.reader.peek_cons hunread
    exact .inr ⟨r, r', hpeek, hpeek', h.setAside (b := []) hu hr hr'⟩

/-- Looking at the next visible character: both find the same one, or the first finds none where the
second finds the semicolon. -/
theorem peekVisible (h : S.Beside p l s t) :
    (∃ b c u r r', s.reader.unread = b ++ c :: u ∧ (∀ x ∈ b, isBlank x = true) ∧
      isBlank c = false ∧ s.reader.peekVisible = (some (c, b.count '\n'), r) ∧
      t.reader.peekVisible = (some (c, b.count '\n'), r') ∧
      S.Beside p (c :: (b.reverse ++ l)) { s with reader := r } { t with reader := r' }) ∨
    ∃ b r r', (∀ x ∈ b, isBlank x = true) ∧ s.reader.peekVisible = (none, r) ∧
      t.reader.peekVisible = (some (';', b.count '\n'), r') ∧
      S.Aside p (b ++ l) { s with reader := r } { t with reader := r' } := by
  have hunread := h.unread_eq
  rcases Reader.blank_or_visible s.reader.unread with hall | ⟨b, c, v, hu, hb, hc⟩
  · obtain ⟨r, hpeek, hr, -⟩ := h.first.reader.peekVisible_none hall
    obtain ⟨r', hpeek', hr', -⟩ := h.second.reader.peekVisible_some hunread hall (by decide)
    rw [← List.count_reverse] at hpeek'
    exact .inr ⟨_, r, r', fun x hx => hall x (List.mem_reverse.mp hx), hpeek, hpeek',
      h.setAside (List.reverse_reverse _).symm hr hr'⟩
  · obtain ⟨r, hpeek, hr, -⟩ := h.first.reader.peekVisible_some hu hb hc
    rw [hu, List.append_assoc, List.cons_append] at hunread
    obtain ⟨r', hpeek', hr', -⟩ := h.second.reader.peekVisible_some hunread hb hc
    exact .inl ⟨b, c, v, r, r', hu, hb, hc, hpeek, hpeek', h.setReader hr hr'⟩

end Seam.Beside

namespace Grammar.Abreast

variable {α β σ : Type} {P : State Nat → State Nat → Prop}
  {E : β → β → State Nat → State Nat → Prop}

/-! ## Steps of the reader -/

theorem accept {f : Unit → Grammar Nat β} (h : Abreast S (S.Beside (l ++ p) []) (f ()) E) :
    Abreast S (S.Beside p l) (Grammar.accept >>= f) E :=
  fun _ _ hs => h _ _ (hs.setReader hs.first.reader.accept hs.second.reader.accept)

theorem retreat {f : Unit → Grammar Nat β} (h : Abreast S (S.Beside p []) (f ()) E) :
    Abreast S (S.Beside p l) (Grammar.retreat >>= f) E :=
  fun _ _ hs => h _ _ (hs.setReader hs.first.reader.retreat hs.second.reader.retreat)

theorem putBack {c : Char} {f : Unit → Grammar Nat β} (hc : c ≠ '\n')
    (h : Abreast S (S.Beside p []) (f ()) E) :
    Abreast S (S.Beside (c :: p) l) (Grammar.putBack c >>= f) E :=
  fun _ _ hs => h _ _
    (hs.setReader (hs.first.reader.putBack hc).1 (hs.second.reader.putBack hc).1)

theorem peek {f : Option Char → Grammar Nat β}
    (hseam : Apart S (S.Aside p l) (f none) (f (some ';')) E)
    (hsome : ∀ c, Abreast S (S.Beside p (c :: l)) (f (some c)) E) :
    Abreast S (S.Beside p l) (Grammar.peek >>= f) E := by
  intro s t hs
  rw [Grammar.peek, reading_bind, reading_bind]
  rcases hs.peek with ⟨c, r, r', hpeek, hpeek', h⟩ | ⟨r, r', hpeek, hpeek', h⟩
  · rw [hpeek, hpeek']
    exact hsome c _ _ h
  · rw [hpeek, hpeek']
    exact hseam _ _ h

/-- Where the semicolon is left unread and then the same is done as at the end of the text. -/
theorem peekSame {f : Option Char → Grammar Nat β}
    (hseam : f (some ';') = Grammar.retreat >>= fun _ => f none)
    (hnone : Abreast S (S.Beside p []) (f none) E)
    (hsome : ∀ c, Abreast S (S.Beside p (c :: l)) (f (some c)) E) :
    Abreast S (S.Beside p l) (Grammar.peek >>= f) E := by
  refine .peek ?_ hsome
  rw [hseam]
  exact .aside hnone

/-- Where the first run goes astray at the end of the text. -/
theorem peekStray {f : Option Char → Grammar Nat β} {X : β → State Nat → Prop}
    (hstray : Ensures (State.Stands S.first p [] l.reverse) (f none) (S.pairing.Astray X))
    (hX : ∀ a b s t, X a s → E a b s t)
    (hsome : ∀ c, Abreast S (S.Beside p (c :: l)) (f (some c)) E) :
    Abreast S (S.Beside p l) (Grammar.peek >>= f) E :=
  .peek (.strays hstray (fun _ _ h => h.first) hX) hsome

theorem peekVisible {f : Option (Char × Nat) → Grammar Nat β}
    (hseam : ∀ b, (∀ x ∈ b, isBlank x = true) →
      Apart S (S.Aside p (b ++ l)) (f none) (f (some (';', b.count '\n'))) E)
    (hsome : ∀ b c, isBlank c = false →
      Abreast S (S.Beside p (c :: (b ++ l))) (f (some (c, b.count '\n'))) E) :
    Abreast S (S.Beside p l) (Grammar.peekVisible >>= f) E := by
  intro s t hs
  rw [Grammar.peekVisible, reading_bind, reading_bind]
  rcases hs.peekVisible with ⟨b, c, u, r, r', -, -, hc, hpeek, hpeek', h⟩ |
    ⟨b, r, r', hb, hpeek, hpeek', h⟩
  · rw [hpeek, hpeek', ← List.count_reverse]
    exact hsome b.reverse c hc _ _ h
  · rw [hpeek, hpeek']
    exact hseam b hb _ _ h

/-- The next visible character of the line. Where a new line comes before the semicolon, both find
none. -/
theorem peekOnLineFound {f : Option Char → Grammar Nat β}
    (hnone : Abreast S (S.Beside p []) (f none) E)
    (hseam : ∀ b, LineBlanks b → Apart S (S.Aside p (b ++ l)) (f none) (f (some ';')) E)
    (hsome : ∀ b c, S.first.OnLine (p.length + l.length) c →
      Abreast S (S.Beside p (c :: (b ++ l))) (f (some c)) E) :
    Abreast S (S.Beside p l) (Grammar.peekOnLine >>= f) E := by
  intro s t hs
  rw [Grammar.peekOnLine, bind_assoc, Grammar.peekVisible, reading_bind, reading_bind]
  rcases hs.peekVisible with ⟨b, c, u, r, r', hu, hb, hc, hpeek, hpeek', h⟩ |
    ⟨b, r, r', hb, hpeek, hpeek', h⟩
  · rw [hpeek, hpeek']
    rcases Nat.eq_zero_or_pos (b.count '\n') with h0 | h0
    · simp only [h0, if_true]
      refine hsome b.reverse c ⟨b, u, ?_, hb, List.count_eq_zero.mp h0, hc⟩ _ _ h
      rw [← hs.first.reader.unread_eq, hu]
    · simp only [Nat.ne_of_gt h0, if_false]
      exact Abreast.retreat (f := fun _ => f none) hnone _ _ h
  · rw [hpeek, hpeek']
    rcases Nat.eq_zero_or_pos (b.count '\n') with h0 | h0
    · simp only [h0, if_true]
      have hline : '\n' ∉ b := List.count_eq_zero.mp h0
      exact hseam b (fun x hx => ⟨hb x hx, fun heq => hline (heq ▸ hx)⟩) _ _ h
    · simp only [Nat.ne_of_gt h0, if_false]
      exact Apart.aside hnone _ _ h

theorem peekOnLine {f : Option Char → Grammar Nat β}
    (hnone : Abreast S (S.Beside p []) (f none) E)
    (hseam : ∀ b, LineBlanks b → Apart S (S.Aside p (b ++ l)) (f none) (f (some ';')) E)
    (hsome : ∀ b c, isBlank c = false →
      Abreast S (S.Beside p (c :: (b ++ l))) (f (some c)) E) :
    Abreast S (S.Beside p l) (Grammar.peekOnLine >>= f) E :=
  .peekOnLineFound hnone hseam fun b c ⟨_, _, _, _, _, hc⟩ => hsome b c hc

/-- Where the semicolon is left unread and then the same is done as at the end of the line. -/
theorem peekOnLineSame {f : Option Char → Grammar Nat β}
    (hseam : f (some ';') = Grammar.retreat >>= fun _ => f none)
    (hnone : Abreast S (S.Beside p []) (f none) E)
    (hsome : ∀ b c, S.first.OnLine (p.length + l.length) c →
      Abreast S (S.Beside p (c :: (b ++ l))) (f (some c)) E) :
    Abreast S (S.Beside p l) (Grammar.peekOnLine >>= f) E := by
  refine .peekOnLineFound hnone (fun b _ => ?_) hsome
  rw [hseam]
  exact .aside hnone

/-- Where the end of the line is reported. -/
theorem peekOnLineMoot {f : Option Char → Grammar Nat β}
    (hmoot : Ensures (State.At S.first p []) (f none) (S.pairing.Astray Never))
    (hsome : ∀ b c, isBlank c = false →
      Abreast S (S.Beside p (c :: (b ++ l))) (f (some c)) E) :
    Abreast S (S.Beside p l) (Grammar.peekOnLine >>= f) E :=
  .peekOnLine (Apart.moot hmoot fun _ _ h => h.first)
    (fun _ _ => .moot hmoot fun _ _ h => h.first.stands) hsome

/-- Consuming the next character. -/
theorem read {f : Option Char → Grammar Nat β} {X : β → State Nat → Prop}
    (hstray : Ensures (State.At S.first p []) (f none) (S.pairing.Astray X))
    (hX : ∀ a b s t, X a s → E a b s t)
    (hsome : ∀ c, Abreast S (S.Beside (c :: p) []) (f (some c)) E) :
    Abreast S (S.Beside p []) (Grammar.read >>= f) E := by
  intro s t hs
  have hunread := hs.unread_eq
  rw [Grammar.read, reading_bind, reading_bind]
  cases hu : s.reader.unread with
  | nil =>
    obtain ⟨r, hread, hr, -⟩ := hs.first.reader.read_nil hu
    rw [hread]
    exact .strays hstray (hs.first.setReader hr) fun _ _ => hX _ _ _ _
  | cons c u =>
    rw [hu] at hunread
    obtain ⟨r, hread, hr, -⟩ := hs.first.reader.read_cons hu
    obtain ⟨r', hread', hr', -⟩ := hs.second.reader.read_cons hunread
    rw [hread, hread']
    exact hsome c _ _ (hs.setReader hr hr')

/-- Consuming characters up to the first that is visible. At the end of the text, the second run
consumes the semicolon. -/
theorem readVisible {f : Option Char → Grammar Nat β}
    (hseam : (∀ x ∈ S.first.text.drop p.length, isBlank x = true) →
      Apart S (fun s t => s.At S.first S.first.text.reverse [] ∧
          t.At S.second (';' :: S.first.text.reverse) [] ∧ s.problems = [] ∧ t.problems = [])
        (f none) (f (some ';')) E)
    (hsome : ∀ b c, isBlank c = false →
      Abreast S (S.Beside (c :: (b ++ p)) []) (f (some c)) E) :
    Abreast S (S.Beside p []) (Grammar.readVisible >>= f) E := by
  intro s t hs
  have hunread := hs.unread_eq
  rw [Grammar.readVisible, reading_bind, reading_bind]
  rcases Reader.blank_or_visible s.reader.unread with hall | ⟨b, c, v, hu, hb, hc⟩
  · obtain ⟨r, hread, hr, -⟩ := hs.first.reader.readVisible_none hall
    obtain ⟨r', hread', hr', -⟩ := hs.second.reader.readVisible_some hunread hall (by decide)
    have htext : s.reader.unread.reverse ++ p = S.first.text.reverse := by
      simp [← hs.first.reader.text]
    rw [htext] at hr hr'
    rw [hread, hread']
    refine hseam ?_ _ _
      ⟨hs.first.setReader hr, hs.second.setReader hr', hs.first_clean, hs.second_clean⟩
    rwa [hs.first.reader.unread_eq] at hall
  · obtain ⟨r, hread, hr, -⟩ := hs.first.reader.readVisible_some hu hb hc
    rw [hu, List.append_assoc, List.cons_append] at hunread
    obtain ⟨r', hread', hr', -⟩ := hs.second.reader.readVisible_some hunread hb hc
    rw [hread, hread']
    exact hsome b.reverse c hc _ _ (hs.setReader hr hr')

/-- Several characters at once. -/
theorem peekMany {n : Nat} {f : Option (List Char) → Grammar Nat β} {X : β → State Nat → Prop}
    (hstray : Ensures (State.At S.first p []) (f none) (S.pairing.Astray X))
    (hX : ∀ a b s t, X a s → E a b s t)
    (hsome : ∀ cs, Abreast S (S.Beside p (cs.reverse ++ l)) (f (some cs)) E) :
    Abreast S (S.Beside p l) (Grammar.peekMany n >>= f) E := by
  intro s t hs
  rw [Grammar.peekMany, reading_bind, reading_bind]
  rcases Nat.lt_or_ge s.reader.unread.length n with hn | hn
  · obtain ⟨r, hmany, hr, -⟩ := hs.first.reader.peekMany_none n hn
    rw [hmany]
    exact .strays hstray (hs.first.setReader hr) fun _ _ => hX _ _ _ _
  · have hn' : n ≤ t.reader.unread.length := by
      rw [hs.unread_eq, List.length_append]
      omega
    obtain ⟨r, hmany, hr, -⟩ := hs.first.reader.peekMany_some n hn
    obtain ⟨r', hmany', hr', -⟩ := hs.second.reader.peekMany_some n hn'
    rw [hs.unread_eq, List.take_append_of_le_length hn] at hmany' hr'
    rw [hmany, hmany']
    exact hsome _ _ _ (hs.setReader hr hr')

/-- Characters without a semicolon are not found across the end of the text. -/
theorem acceptExactly {cs : List Char} {f : Bool → Grammar Nat β} (hcs : ';' ∉ cs)
    (hyes : Abreast S (S.Beside (cs.reverse ++ p) []) (f true) E)
    (hno : Abreast S (S.Beside p []) (f false) E) :
    Abreast S (S.Beside p []) (Grammar.acceptExactly cs >>= f) E := by
  intro s t hs
  rw [Grammar.acceptExactly, bind_assoc, Grammar.peekMany, reading_bind, reading_bind]
  rcases Nat.lt_or_ge s.reader.unread.length cs.length with hn | hn
  · obtain ⟨r, hmany, hr, -⟩ := hs.first.reader.peekMany_none _ hn
    have hn' : cs.length ≤ t.reader.unread.length ∨ t.reader.unread.length < cs.length := by omega
    rw [hmany]
    rcases hn' with hn' | hn'
    · obtain ⟨r', hmany', hr', -⟩ := hs.second.reader.peekMany_some _ hn'
      -- what the second run sees goes over the semicolon, and there is none in `cs`
      have hne : t.reader.unread.take cs.length ≠ cs := by
        intro heq
        refine hcs (heq ▸ ?_)
        rw [hs.unread_eq, List.mem_take_iff_getElem]
        exact ⟨s.reader.unread.length, by simp; omega, by simp⟩
      rw [hmany']
      simp only [hne, if_false]
      exact hno _ _ (hs.setReader hr hr'.retreat)
    · obtain ⟨r', hmany', hr', -⟩ := hs.second.reader.peekMany_none _ hn'
      rw [hmany']
      exact hno _ _ (hs.setReader hr hr')
  · have hn' : cs.length ≤ t.reader.unread.length := by
      rw [hs.unread_eq, List.length_append]
      omega
    obtain ⟨r, hmany, hr, -⟩ := hs.first.reader.peekMany_some _ hn
    obtain ⟨r', hmany', hr', -⟩ := hs.second.reader.peekMany_some _ hn'
    rw [hs.unread_eq, List.take_append_of_le_length hn] at hmany' hr'
    rw [hmany, hmany']
    by_cases hseen : s.reader.unread.take cs.length = cs
    · rw [hseen, List.append_nil] at hr hr'
      simp only [hseen, if_true]
      exact Abreast.accept (f := fun _ => f true) hyes _ _ (hs.setReader hr hr')
    · simp only [hseen, if_false]
      exact Abreast.retreat (f := fun _ => f false) hno _ _ (hs.setReader hr hr')

/-! ## What is known to come next -/

theorem known {c : Char} {g : Grammar Nat β}
    (h : S.first.text[p.length]? = some c → Abreast S (S.Beside p (l ++ [c])) g E) :
    Abreast S (S.Beside p (l ++ [c])) g E := by
  intro s t hs
  refine h ?_ s t hs
  simp [← hs.first.reader.text]

theorem peekKnown {c : Char} {f : Option Char → Grammar Nat β}
    (hc : S.first.text[p.length]? = some c) (h : Abreast S (S.Beside p [c]) (f (some c)) E) :
    Abreast S (S.Beside p []) (Grammar.peek >>= f) E := by
  intro s t hs
  have hunread := hs.unread_eq
  obtain ⟨u, hu⟩ := hs.first.reader.unread_of_known hc
  rw [hu, List.cons_append] at hunread
  obtain ⟨r, hpeek, hr, -⟩ := hs.first.reader.peek_cons hu
  obtain ⟨r', hpeek', hr', -⟩ := hs.second.reader.peek_cons hunread
  rw [Grammar.peek, reading_bind, reading_bind, hpeek, hpeek']
  exact h _ _ (hs.setReader hr hr')

/-! ## Places and levels -/

/-- A question to which both runs have the same answer. -/
theorem asking {question : State Nat → α} {a : α} {f : α → Grammar Nat β}
    (ha : ∀ s t, P s t → question s = a ∧ question t = a) (h : Abreast S P (f a) E) :
    Abreast S P (Grammar.asking question >>= f) E := by
  intro s t hs
  obtain ⟨hfirst, hsecond⟩ := ha s t hs
  rw [bind_apply, bind_apply, asking_apply, asking_apply, hfirst, hsecond]
  exact h s t hs

theorem here {f : Nat → Grammar Nat β} (h : Abreast S (S.Beside p l) (f p.length) E) :
    Abreast S (S.Beside p l) (Grammar.here >>= f) E := by
  refine .asking (fun s t hs => ⟨?_, ?_⟩) h
  · rw [hs.first.reader.place, S.meter, Meter.index_after, List.length_reverse]
  · rw [hs.second.reader.place, S.second_meter, Meter.index_after, List.length_reverse]

theorem lookedPlace {f : Nat → Grammar Nat β}
    (h : Abreast S (S.Beside p l) (f (p.length + l.length)) E) :
    Abreast S (S.Beside p l) (Grammar.lookedPlace >>= f) E := by
  refine .asking (fun s t hs => ⟨?_, ?_⟩) h
  · rw [hs.first.reader.lookedPlace, S.meter, Meter.index_after, List.length_append,
      List.length_reverse, List.length_reverse]
  · rw [hs.second.reader.lookedPlace, S.second_meter, Meter.index_after, List.length_append,
      List.length_reverse, List.length_reverse]

theorem before {q : Nat} {c : Char} {f : Nat → Grammar Nat β} (hc : c ≠ '\n')
    (h : Abreast S (S.Beside p l) (f (q - 1)) E) :
    Abreast S (S.Beside p l) (Grammar.before q c >>= f) E := by
  intro s t hs
  rw [bind_apply, bind_apply, before_apply hc, before_apply hc, hs.first.reader.meter, S.meter,
    hs.second.reader.meter, S.second_meter]
  exact h s t hs

theorem beforeAll {q : Nat} {cs : List Char} {f : Nat → Grammar Nat β} (hcs : ∀ c ∈ cs, c ≠ '\n')
    (h : Abreast S (S.Beside p l) (f (q - cs.length)) E) :
    Abreast S (S.Beside p l) (Grammar.beforeAll q cs >>= f) E := by
  induction cs generalizing q with
  | nil => exact h
  | cons c cs ih =>
    rw [Grammar.beforeAll, bind_assoc]
    refine .before (hcs c (by simp)) (ih (fun x hx => hcs x (by simp [hx])) ?_)
    rwa [Nat.sub_sub, Nat.add_comm, ← List.length_cons]

theorem placeOf {c : Char} {f : Nat → Grammar Nat β} (hc : c ≠ '\n')
    (h : Abreast S (S.Beside (c :: p) []) (f p.length) E) :
    Abreast S (S.Beside (c :: p) []) (Grammar.placeOf c >>= f) E := by
  rw [Grammar.placeOf, bind_assoc]
  exact .here (.before hc h)

theorem inGroup {f : Bool → Grammar Nat β}
    (h : Abreast S (S.Beside p l) (f S.first.inGroup) E) :
    Abreast S (S.Beside p l) (Grammar.inGroup >>= f) E :=
  .asking (fun _ _ hs => ⟨hs.first.inGroup, hs.second.inGroup.trans S.inGroup⟩) h

theorem depth {f : Nat → Grammar Nat β} (h : Abreast S (S.Beside p l) (f S.first.depth) E) :
    Abreast S (S.Beside p l) (Grammar.depth >>= f) E :=
  .asking (fun _ _ hs => ⟨hs.first.depth, hs.second.depth.trans S.depth⟩) h

theorem limit {f : Nat → Grammar Nat β} (h : Abreast S (S.Beside p l) (f S.first.limit) E) :
    Abreast S (S.Beside p l) (Grammar.limit >>= f) E :=
  .asking (fun _ _ hs => ⟨hs.first.limit, hs.second.limit.trans S.limit⟩) h

theorem atLimit {f : Bool → Grammar Nat β}
    (h : ∀ b, b = decide (S.first.limit ≤ S.first.depth) → Abreast S (S.Beside p l) (f b) E) :
    Abreast S (S.Beside p l) (Grammar.atLimit >>= f) E := by
  refine .asking (fun s t hs => ⟨?_, ?_⟩) (h _ rfl)
  · rw [hs.first.limit, hs.first.depth]
  · rw [hs.second.limit, hs.second.depth, S.limit, S.depth]

theorem whenever {b : Bool} {g : Grammar Nat Unit} {f : Unit → Grammar Nat β}
    (hdone : b = true → Abreast S P (g >>= f) E) (hnot : b = false → Abreast S P (f ()) E) :
    Abreast S P (Grammar.whenever b g >>= f) E := by
  cases b with
  | false => exact hnot rfl
  | true => exact hdone rfl

/-- Nothing is noted outside of edge groups. -/
theorem outsideGroup {f : Unit → Grammar Nat β} (hgroup : S.first.inGroup = false)
    (h : Abreast S (S.Beside p l) (f ()) E) :
    Abreast S (S.Beside p l) (Grammar.outsideGroup >>= f) E := by
  rw [Grammar.outsideGroup, bind_assoc]
  refine .inGroup (.whenever (fun hin => ?_) fun _ => h)
  rw [hgroup] at hin
  cases hin

/-- A level that is entered is left again. -/
theorem nested {g : Grammar Nat α} {f : α → Grammar Nat β}
    {E' : α → α → State Nat → State Nat → Prop}
    (hg : Abreast S.deeper (S.deeper.Beside p []) g E')
    (hstray : ∀ a b, Apart S (E' a b) (ascend >>= fun _ => f a) (ascend >>= fun _ => f b) E)
    (hf : ∀ a q, Abreast S (S.Beside q []) (f a) E) :
    Abreast S (S.Beside p []) (Grammar.nested g >>= f) E := by
  intro s t hs
  have hdeeper : S.deeper.Beside p [] { s with depth := s.depth + 1 }
      { t with depth := t.depth + 1 } :=
    ⟨⟨hs.first.reader, congrArg (· + 1) hs.first.depth, hs.first.limit, hs.first.inGroup⟩,
      ⟨hs.second.reader, congrArg (· + 1) hs.second.depth, hs.second.limit, hs.second.inGroup⟩,
      hs.first_clean, hs.second_clean⟩
  rcases hg _ _ hdeeper with hmoot | ⟨hsame, q, h⟩ | hE
  · exact .inl (Seam.Moot.mono (S := S) hmoot (ascend >>= fun _ => f _) (ascend >>= fun _ => f _))
  · have hfirst := State.At.depth_ne_zero (F := S.first) h.first
    have hsecond := State.At.depth_ne_zero (F := S.second) h.second
    rw [bind_apply, bind_apply, nested_apply hfirst, nested_apply hsecond, ← hsame]
    exact hf _ q _ _
      ⟨⟨h.first.reader, congrArg (· - 1) h.first.depth, h.first.limit, h.first.inGroup⟩,
        ⟨h.second.reader, congrArg (· - 1) h.second.depth, h.second.limit, h.second.inGroup⟩,
        h.first_clean, h.second_clean⟩
  · exact hstray _ _ _ _ hE

/-- Parentheses that are entered are left again. -/
theorem grouped {g : Grammar Nat α} {f : α → Grammar Nat β}
    {E' : α → α → State Nat → State Nat → Prop} (hgroup : S.first.inGroup = false)
    (hg : Abreast (S.grouped true) ((S.grouped true).Beside p []) g E')
    (hstray : ∀ a b, Apart S (E' a b) (setGroup false >>= fun _ => f a)
      (setGroup false >>= fun _ => f b) E)
    (hf : ∀ a q, Abreast S (S.Beside q []) (f a) E) :
    Abreast S (S.Beside p [])
      (setGroup true >>= fun _ => g >>= fun a => setGroup false >>= fun _ => f a) E := by
  intro s t hs
  have hinside : (S.grouped true).Beside p [] { s with inGroup := true }
      { t with inGroup := true } :=
    ⟨⟨hs.first.reader, hs.first.depth, hs.first.limit, rfl⟩,
      ⟨hs.second.reader, hs.second.depth, hs.second.limit, rfl⟩, hs.first_clean, hs.second_clean⟩
  rcases hg _ _ hinside with hmoot | ⟨hsame, q, h⟩ | hE
  · exact .inl (Seam.Moot.mono (S := S) hmoot (setGroup false >>= fun _ => f _)
      (setGroup false >>= fun _ => f _))
  · have hrest : ∀ a b s t, a = b → S.Beside q [] s t →
        Judged S E (f a s).1 (f b t).1 (f a s).2 (f b t).2 := by
      rintro a _ s t rfl hs
      exact hf a q s t hs
    exact hrest _ _ _ _ hsame
      ⟨⟨h.first.reader, h.first.depth, h.first.limit, hgroup.symm⟩,
        ⟨h.second.reader, h.second.depth, h.second.limit, (S.inGroup.trans hgroup).symm⟩,
        h.first_clean, h.second_clean⟩
  · exact hstray _ _ _ _ hE

/-! ## Problems -/

theorem report {cause : Cause} {start stop : Nat} {f : Unit → Grammar Nat β} :
    Abreast S P (Grammar.report cause start stop >>= f) E :=
  Apart.noticed (.astray_report S.tail_ne_nil)

theorem reportToHere {cause : Cause} {start : Nat} {f : Unit → Grammar Nat β} :
    Abreast S P (Grammar.reportToHere cause start >>= f) E :=
  Apart.noticed (.astray_reportToHere S.tail_ne_nil)

theorem reportToReach {cause : Cause} {start : Nat} {f : Unit → Grammar Nat β} :
    Abreast S P (Grammar.reportToReach cause start >>= f) E :=
  Apart.noticed (.astray_reportToReach S.tail_ne_nil)

theorem reportAtColon {cause : Cause} {stop : Nat} {f : Unit → Grammar Nat β} :
    Abreast S P (Grammar.reportAtColon cause stop >>= f) E :=
  Apart.noticed (.astray_reportAtColon S.tail_ne_nil)

end Grammar.Abreast

/-! ## Repetition -/

namespace Grammar

variable {σ : Type} {step : σ → Grammar Nat (Next σ)} {I J R₁ R₂ : σ → Nat → Prop}

/-- What a repetition does behind one of its steps. -/
def proceed (step : σ → Grammar Nat (Next σ)) : Next σ → Grammar Nat σ
  | .stop g => pure g
  | .again g => repeating step g

/-- A repetition is a step and what is done behind it. -/
theorem repeating_proceed {F : Frame Nat} {I R : σ → Nat → Prop} {g : σ} {p : List Char}
    {s : State Nat} (hs : s.At F p []) (h : Steps F p.length I R (step g s).1 (step g s).2) :
    repeating step g s = proceed step (step g s).1 (step g s).2 := by
  cases hnext : (step g s).1 with
  | stop g' => exact repeating_stop hnext
  | again g' =>
    rw [hnext] at h
    obtain ⟨q, hq, hat, -⟩ := h
    exact repeating_again hnext (hs.left_lt hat hq)

/-- **Repetition**: the runs stay abreast while their steps do, and come apart with the first step
that does. -/
theorem repeating_abreast {g : σ} {p : List Char}
    {E' : Next σ → Next σ → State Nat → State Nat → Prop}
    {E : σ → σ → State Nat → State Nat → Prop} (hI : I g p.length) (hJ : J g p.length)
    (hreads₁ : ∀ g p, I g p.length →
      Ensures (State.At S.first p []) (step g) (Steps S.first p.length I R₁))
    (hreads₂ : ∀ g p, J g p.length →
      Ensures (State.At S.second p []) (step g) (Steps S.second p.length J R₂))
    (hstep : ∀ g p, I g p.length → J g p.length → Abreast S (S.Beside p []) (step g) E')
    (hstray : ∀ a b, Apart S (E' a b) (proceed step a) (proceed step b) E) :
    Abreast S (S.Beside p []) (repeating step g) E := by
  intro s t hs
  -- on what is left for the first run
  induction hn : s.reader.left using Nat.strongRecOn generalizing g p s t with
  | _ n ih =>
    subst hn
    have hafter₁ := hreads₁ g p hI s hs.first
    have hafter₂ := hreads₂ g p hJ t hs.second
    rw [repeating_proceed hs.first hafter₁, repeating_proceed hs.second hafter₂]
    rcases hstep g p hI hJ s t hs with hmoot | ⟨hsame, q, hbeside⟩ | hE
    · exact .inl (hmoot.mono _ _)
    · rw [← hsame] at hafter₂ ⊢
      cases hnext : (step g s).1 with
      | stop g' => exact .inr (.inl ⟨rfl, q, hbeside⟩)
      | again g' =>
        rw [hnext] at hafter₁ hafter₂
        obtain ⟨q₁, hq, hat₁, hI⟩ := hafter₁
        obtain ⟨q₂, -, hat₂, hJ⟩ := hafter₂
        obtain rfl : q₁ = q := hat₁.reader.past.symm.trans hbeside.first.reader.past
        obtain rfl : q₂ = q₁ := hat₂.reader.past.symm.trans hbeside.second.reader.past
        exact ih _ (hs.first.left_lt hat₁ hq) hI hJ _ _ hbeside rfl
    · exact hstray _ _ _ _ hE

/-- Repetition where the first run goes astray with its last step only. -/
theorem repeating_strays {g : σ} {p : List Char} {X : σ → State Nat → Prop}
    (hI : I g p.length) (hJ : J g p.length)
    (hreads₁ : ∀ g p, I g p.length →
      Ensures (State.At S.first p []) (step g) (Steps S.first p.length I R₁))
    (hreads₂ : ∀ g p, J g p.length →
      Ensures (State.At S.second p []) (step g) (Steps S.second p.length J R₂))
    (hstep : ∀ g p, I g p.length → J g p.length →
      Abreast S (S.Beside p []) (step g) (Strays (Stops X))) :
    Abreast S (S.Beside p []) (repeating step g) (Strays X) := by
  refine repeating_abreast hI hJ hreads₁ hreads₂ hstep ?_
  rintro _ b s t ⟨g, rfl, hX⟩
  exact .apart hX

end Grammar

end Diagram
