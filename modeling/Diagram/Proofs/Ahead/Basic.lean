import Diagram.Proofs.Logic

/-!
Reading known text. Where it is known what is ahead, every step of the grammar has one outcome:
`Ahead F p l u g Q` says that with `u` ahead `g` leads to a result and a state with `Q`. Nothing
must have been found wrong with the text before; so nothing is wrong with a text if it can be read
by these rules up to its end.
-/
namespace Diagram

variable {π α β σ : Type}

/-! ## What is ahead -/

/-- The line ends here: nothing but a new line is next. -/
def EndsLine (u : List Char) : Prop :=
  ∀ c ∈ u.head?, c = '\n'

/-- Nothing is found wrong with the text before `u`, of which `p` has been consumed and `l` looked
at, both latest first. -/
structure State.Stands (F : Frame π) (p l u : List Char) (s : State π) : Prop where
  stands : s.At F p l
  unread : s.reader.unread = u
  problems : s.problems = []

theorem State.Stands.text {F : Frame π} {p l u : List Char} {s : State π} (h : s.Stands F p l u) :
    p.reverse ++ l.reverse ++ u = F.text := by
  rw [← h.unread]
  exact h.stands.reader.text

/-- The reader moves on the same text. -/
theorem State.Stands.setReader {F : Frame π} {p l u p' l' u' : List Char} {s : State π}
    {r : Reader π} (h : s.Stands F p l u) (hr : r.At F.toTape p' l')
    (hu : p'.reverse ++ l'.reverse ++ u' = p.reverse ++ l.reverse ++ u) :
    State.Stands F p' l' u' { s with reader := r } := by
  refine ⟨h.stands.setReader hr, ?_, h.problems⟩
  have htext : p'.reverse ++ l'.reverse ++ r.unread = p'.reverse ++ l'.reverse ++ u' := by
    rw [hr.text, hu, h.text]
  exact List.append_cancel_left htext

namespace Grammar

/-- With `u` ahead, `g` leads to a result and a state with `Q`. -/
def Ahead (F : Frame π) (p l u : List Char) (g : Grammar π α) (Q : α → State π → Prop) : Prop :=
  Ensures (State.Stands F p l u) g Q

/-- Reading has come to `u` with a result that has `R`. -/
def Arrives (F : Frame π) (u : List Char) (R : α → Prop) (a : α) (s : State π) : Prop :=
  R a ∧ ∃ p, s.Stands F p [] u

namespace Ahead

variable {F : Frame π} {p l u : List Char} {Q : β → State π → Prop}

/-! ## Sequencing -/

theorem done {b : β} {R : β → Prop} (h : R b) : Ahead F p [] u (pure b) (Arrives F u R) :=
  fun _ hs => ⟨h, p, hs⟩

/-- A part of the grammar that something follows. -/
theorem call {g : Grammar π α} {f : α → Grammar π β} {v : List Char} {R : α → Prop}
    (hg : Ahead F p l u g (Arrives F v R)) (hf : ∀ a q, R a → Ahead F q [] v (f a) Q) :
    Ahead F p l u (g >>= f) Q := by
  intro s hs
  obtain ⟨hR, q, hs'⟩ := hg s hs
  exact hf _ q hR _ hs'

/-- A part of the grammar that comes last. -/
theorem mono {g : Grammar π β} {v : List Char} {R R' : β → Prop}
    (hg : Ahead F p l u g (Arrives F v R)) (h : ∀ b, R b → R' b) :
    Ahead F p l u g (Arrives F v R') := by
  intro s hs
  obtain ⟨hR, hs'⟩ := hg s hs
  exact ⟨h _ hR, hs'⟩

/-- What has been consumed and looked at is the text in front of `u`. -/
theorem known {g : Grammar π β}
    (h : p.reverse ++ l.reverse ++ u = F.text → Ahead F p l u g Q) : Ahead F p l u g Q :=
  fun s hs => h hs.text s hs

/-- What is done on a condition is left out where the condition fails. -/
theorem skip {b : Bool} {g : Grammar π Unit} {f : Unit → Grammar π β} (hb : b = false)
    (h : Ahead F p l u (f ()) Q) : Ahead F p l u (Grammar.whenever b g >>= f) Q := by
  subst hb
  exact h

theorem yes {c : Prop} [Decidable c] {g g' : Grammar π β} (hc : c) (h : Ahead F p l u g Q) :
    Ahead F p l u (if c then g else g') Q := by
  rw [if_pos hc]
  exact h

theorem no {c : Prop} [Decidable c] {g g' : Grammar π β} (hc : ¬c) (h : Ahead F p l u g' Q) :
    Ahead F p l u (if c then g else g') Q := by
  rw [if_neg hc]
  exact h

/-! ## Steps of the reader -/

/-- A step of the reader of which the result and the place it leads to are known. -/
theorem reading {step : Reader π → α × Reader π} {f : α → Grammar π β} {a : α}
    {q m v : List Char}
    (hstep : ∀ r : Reader π, r.At F.toTape p l → r.unread = u →
      ∃ r', step r = (a, r') ∧ r'.At F.toTape q m)
    (hu : q.reverse ++ m.reverse ++ v = p.reverse ++ l.reverse ++ u)
    (h : Ahead F q m v (f a) Q) : Ahead F p l u (Grammar.reading step >>= f) Q := by
  intro s hs
  obtain ⟨r', heq, hr'⟩ := hstep _ hs.stands.reader hs.unread
  rw [reading_bind, heq]
  exact h _ (hs.setReader hr' hu)

theorem adjusting {step : Reader π → Reader π} {f : Unit → Grammar π β} {q m v : List Char}
    (hstep : ∀ r : Reader π, r.At F.toTape p l → (step r).At F.toTape q m)
    (hu : q.reverse ++ m.reverse ++ v = p.reverse ++ l.reverse ++ u)
    (h : Ahead F q m v (f ()) Q) : Ahead F p l u (Grammar.adjusting step >>= f) Q :=
  fun _ hs => h _ (hs.setReader (hstep _ hs.stands.reader) hu)

theorem accept {f : Unit → Grammar π β} (h : Ahead F (l ++ p) [] u (f ()) Q) :
    Ahead F p l u (Grammar.accept >>= f) Q :=
  .adjusting (fun _ hr => hr.accept) (by simp) h

theorem retreat {f : Unit → Grammar π β} (h : Ahead F p [] (l.reverse ++ u) (f ()) Q) :
    Ahead F p l u (Grammar.retreat >>= f) Q :=
  .adjusting (fun _ hr => hr.retreat) (by simp) h

theorem putBack {c : Char} {f : Unit → Grammar π β} (hc : c ≠ '\n')
    (h : Ahead F p [] (c :: u) (f ()) Q) :
    Ahead F (c :: p) [] u (Grammar.putBack c >>= f) Q :=
  .adjusting (fun _ hr => (hr.putBack hc).1) (by simp) h

theorem peek {c : Char} {f : Option Char → Grammar π β} (h : Ahead F p (c :: l) u (f (some c)) Q) :
    Ahead F p l (c :: u) (Grammar.peek >>= f) Q := by
  refine .reading (fun r hr hu => ?_) (by simp) h
  obtain ⟨r', hpeek, hr', -⟩ := hr.peek_cons hu
  exact ⟨r', hpeek, hr'⟩

/-- At the end of the text, nothing is found and what has been looked at is ahead again. -/
theorem peekEnd {f : Option Char → Grammar π β} (h : Ahead F p [] l.reverse (f none) Q) :
    Ahead F p l [] (Grammar.peek >>= f) Q := by
  refine .reading (fun r hr hu => ?_) (by simp) h
  obtain ⟨r', hpeek, hr', -⟩ := hr.peek_nil hu
  exact ⟨r', hpeek, hr'⟩

theorem read {c : Char} {f : Option Char → Grammar π β} (h : Ahead F (c :: p) [] u (f (some c)) Q) :
    Ahead F p [] (c :: u) (Grammar.read >>= f) Q := by
  refine .reading (fun r hr hu => ?_) (by simp) h
  obtain ⟨r', hread, hr', -⟩ := hr.read_cons hu
  exact ⟨r', hread, hr'⟩

theorem readVisible {b : List Char} {c : Char} {f : Option Char → Grammar π β}
    (hb : ∀ x ∈ b, isBlank x = true) (hc : isBlank c = false)
    (h : Ahead F (c :: (b.reverse ++ p)) [] u (f (some c)) Q) :
    Ahead F p [] (b ++ c :: u) (Grammar.readVisible >>= f) Q := by
  refine .reading (fun r hr hu => ?_) (by simp) h
  obtain ⟨r', hread, hr', -⟩ := hr.readVisible_some hu hb hc
  exact ⟨r', hread, hr'⟩

theorem readVisibleEnd {f : Option Char → Grammar π β} (hu : ∀ x ∈ u, isBlank x = true)
    (h : Ahead F (u.reverse ++ p) [] [] (f none) Q) :
    Ahead F p [] u (Grammar.readVisible >>= f) Q := by
  refine .reading (fun r hr hr₀ => ?_) (by simp) h
  obtain ⟨r', hread, hr', -⟩ := hr.readVisible_none (by rwa [hr₀])
  rw [hr₀] at hr'
  exact ⟨r', hread, hr'⟩

theorem peekVisible {b : List Char} {c : Char} {f : Option (Char × Nat) → Grammar π β}
    (hb : ∀ x ∈ b, isBlank x = true) (hc : isBlank c = false)
    (h : Ahead F p (c :: (b.reverse ++ l)) u (f (some (c, b.count '\n'))) Q) :
    Ahead F p l (b ++ c :: u) (Grammar.peekVisible >>= f) Q := by
  refine .reading (fun r hr hu => ?_) (by simp) h
  obtain ⟨r', hpeek, hr', -⟩ := hr.peekVisible_some hu hb hc
  exact ⟨r', hpeek, hr'⟩

theorem peekVisibleEnd {f : Option (Char × Nat) → Grammar π β} (hu : ∀ x ∈ u, isBlank x = true)
    (h : Ahead F p [] (l.reverse ++ u) (f none) Q) :
    Ahead F p l u (Grammar.peekVisible >>= f) Q := by
  refine .reading (fun r hr hr₀ => ?_) (by simp) h
  obtain ⟨r', hpeek, hr', -⟩ := hr.peekVisible_none (by rwa [hr₀])
  exact ⟨r', hpeek, hr'⟩

/-- The next visible character of the line is found behind blanks. -/
theorem peekOnLine {b : List Char} {c : Char} {f : Option Char → Grammar π β}
    (hb : LineBlanks b) (hc : isBlank c = false)
    (h : Ahead F p (c :: (b.reverse ++ l)) u (f (some c)) Q) :
    Ahead F p l (b ++ c :: u) (Grammar.peekOnLine >>= f) Q := by
  have hcount : b.count '\n' = 0 := List.count_eq_zero.mpr fun hmem => (hb _ hmem).2 rfl
  rw [Grammar.peekOnLine, bind_assoc]
  refine .peekVisible (fun x hx => (hb x hx).1) hc ?_
  rw [hcount]
  exact h

/-- At the end of the line, nothing is found on it. -/
theorem peekLineEnd {f : Option Char → Grammar π β} (hu : EndsLine u)
    (h : Ahead F p [] u (f none) Q) : Ahead F p [] u (Grammar.peekOnLine >>= f) Q := by
  rw [Grammar.peekOnLine, bind_assoc]
  rcases Reader.blank_or_visible u with hblank | ⟨b, c, v, rfl, hb, hc⟩
  · exact .peekVisibleEnd hblank h
  · -- the visible character stands behind the new line, and is left there
    have hpos : 0 < b.count '\n' := by
      cases b with
      | nil =>
        obtain rfl : c = '\n' := hu c rfl
        cases hc
      | cons x b =>
        obtain rfl : x = '\n' := hu x rfl
        simp
    refine .peekVisible hb hc ?_
    simp only [Nat.ne_of_gt hpos, if_false, bind_assoc, pure_bind]
    refine .retreat ?_
    simpa using h

/-- The characters asked for do not come next. -/
theorem acceptOther {cs : List Char} {f : Bool → Grammar π β} (hu : ¬cs <+: u)
    (h : Ahead F p [] u (f false) Q) : Ahead F p [] u (Grammar.acceptExactly cs >>= f) Q := by
  rw [Grammar.acceptExactly, bind_assoc]
  rcases Nat.lt_or_ge u.length cs.length with hlt | hge
  · refine .reading (a := none) (q := p) (m := []) (v := u) (fun r hr hr₀ => ?_) (by simp) h
    obtain ⟨r', hmany, hr', -⟩ := hr.peekMany_none cs.length (by rwa [hr₀])
    exact ⟨r', hmany, hr'⟩
  · have hne : u.take cs.length ≠ cs := by
      intro heq
      exact hu (heq ▸ List.take_prefix cs.length u)
    refine .reading (a := some (u.take cs.length)) (q := p) (m := (u.take cs.length).reverse)
      (v := u.drop cs.length) (fun r hr hr₀ => ?_) (by simp) ?_
    · obtain ⟨r', hmany, hr', -⟩ := hr.peekMany_some cs.length (by rwa [hr₀])
      rw [hr₀] at hmany hr'
      rw [List.append_nil] at hr'
      exact ⟨r', hmany, hr'⟩
    · simp only [hne, if_false, bind_assoc, pure_bind]
      refine .retreat ?_
      simpa using h

/-! ## Places and levels -/

/-- A question to which the answer is known. -/
theorem asking {question : State π → α} {a : α} {f : α → Grammar π β}
    (ha : ∀ s, s.Stands F p l u → question s = a) (h : Ahead F p l u (f a) Q) :
    Ahead F p l u (Grammar.asking question >>= f) Q :=
  Ensures.asking ha h

theorem here {f : π → Grammar π β} (h : Ahead F p l u (f (F.mark p.length)) Q) :
    Ahead F p l u (Grammar.here >>= f) Q :=
  .asking (fun _ hs => hs.stands.reader.mark) h

theorem placeOf {c : Char} {f : π → Grammar π β} (hc : c ≠ '\n')
    (h : Ahead F (c :: p) [] u (f (F.mark p.length)) Q) :
    Ahead F (c :: p) [] u (Grammar.placeOf c >>= f) Q := by
  rw [Grammar.placeOf, bind_assoc]
  refine .here fun s hs => ?_
  have hmeter : s.reader.meter = F.meter := hs.stands.reader.meter
  rw [bind_apply, before_apply hc, hmeter, List.length_cons,
    Tape.mark_before (Reader.At.known (b := []) hs.stands.reader) hc]
  exact h s hs

theorem limit {f : Nat → Grammar π β} (h : Ahead F p l u (f F.limit) Q) :
    Ahead F p l u (Grammar.limit >>= f) Q :=
  .asking (fun _ hs => hs.stands.limit) h

theorem inGroup {f : Bool → Grammar π β} (h : Ahead F p l u (f F.inGroup) Q) :
    Ahead F p l u (Grammar.inGroup >>= f) Q :=
  .asking (fun _ hs => hs.stands.inGroup) h

theorem outsideGroup {f : Unit → Grammar π β} (hF : F.inGroup = false)
    (h : Ahead F p l u (f ()) Q) : Ahead F p l u (Grammar.outsideGroup >>= f) Q := by
  rw [Grammar.outsideGroup, bind_assoc]
  refine .inGroup ?_
  rw [hF]
  exact h

/-- There is room for one more container. -/
theorem belowLimit {f : Bool → Grammar π β} (hF : F.depth < F.limit)
    (h : Ahead F p l u (f false) Q) : Ahead F p l u (Grammar.atLimit >>= f) Q := by
  refine .asking (fun s hs => ?_) h
  rw [hs.stands.limit, hs.stands.depth, decide_eq_false_iff_not]
  omega

/-- A level that is entered is left again. -/
theorem nested {g : Grammar π α} {f : α → Grammar π β} {v : List Char} {R : α → Prop}
    (hg : Ahead F.deeper p [] u g (Arrives F.deeper v R))
    (hf : ∀ a q, R a → Ahead F q [] v (f a) Q) : Ahead F p [] u (Grammar.nested g >>= f) Q := by
  intro s hs
  have hdeeper : State.Stands F.deeper p [] u { s with depth := s.depth + 1 } := by
    refine ⟨⟨hs.stands.reader, ?_, hs.stands.limit, hs.stands.inGroup⟩, hs.unread, hs.problems⟩
    simp [Frame.deeper, hs.stands.depth]
  obtain ⟨hR, q, hs'⟩ := hg _ hdeeper
  rw [bind_apply, nested_apply hs'.stands.depth_ne_zero]
  refine hf _ q hR _ ⟨⟨hs'.stands.reader, ?_, hs'.stands.limit, hs'.stands.inGroup⟩, hs'.unread,
    hs'.problems⟩
  simp [hs'.stands.depth, Frame.deeper]

/-! ## Repetition -/

section

variable {step : σ → Grammar π (Next σ)} {g : σ} {Q : σ → State π → Prop}

/-- A step that goes on, and the rest of the repetition. -/
theorem again {v : List Char} {R : σ → Prop}
    (hstep : Ahead F p [] u (step g) (Arrives F v fun next => ∃ g', next = .again g' ∧ R g'))
    (hlt : v.length < u.length) (hrest : ∀ g' q, R g' → Ahead F q [] v (repeating step g') Q) :
    Ahead F p [] u (repeating step g) Q := by
  intro s hs
  obtain ⟨⟨g', hnext, hR⟩, q, hs'⟩ := hstep s hs
  -- where less is ahead of the same text, more has been consumed
  have hlength := congrArg List.length (hs.text.trans hs'.text.symm)
  simp at hlength
  have hleft := hs.stands.left_lt hs'.stands (by omega)
  rw [repeating_again hnext hleft]
  exact hrest g' q hR _ hs'

/-- A step that stops the repetition. -/
theorem stop {v : List Char} {R : σ → Prop}
    (hstep : Ahead F p [] u (step g) (Arrives F v fun next => ∃ g', next = .stop g' ∧ R g')) :
    Ahead F p [] u (repeating step g) (Arrives F v R) := by
  intro s hs
  obtain ⟨⟨g', hnext, hR⟩, hs'⟩ := hstep s hs
  rw [repeating_stop hnext]
  exact ⟨hR, hs'⟩

end

end Ahead

end Grammar

end Diagram
