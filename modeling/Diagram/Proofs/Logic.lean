import Diagram.Grammar.Basic
import Diagram.Proofs.Tape

/-!
What a part of the grammar ensures. `Ensures P g Q` says that `g` leads from states with `P` to
results and states with `Q`. There is one rule for each step that the grammar is made of, stated for
a step that something follows; the states are described by where the reader stands on a tape.
-/
namespace Diagram

variable {π α β σ : Type}

/-- What stays the same while a part of the grammar is read. -/
structure Frame (π : Type) extends Tape π where
  depth : Nat
  limit : Nat
  inGroup : Bool

namespace Frame

/-- One level deeper. -/
def deeper (F : Frame π) : Frame π := { F with depth := F.depth + 1 }

/-- Inside the parentheses of an edge group, or outside. -/
def grouped (F : Frame π) (inGroup : Bool) : Frame π := { F with inGroup }

theorem grouped_grouped {F : Frame π} (h : F.inGroup = false) :
    (F.grouped true).grouped false = F := by
  obtain ⟨tape, depth, limit, inGroup⟩ := F
  obtain rfl : inGroup = false := h
  rfl

/-- The span from one character index to another. -/
def cover (F : Frame π) (i j : Nat) : Span π := ⟨F.mark i, F.mark j⟩

/-- On the line at the index `i`, the next visible character is `c`. -/
def OnLine (F : Frame π) (i : Nat) (c : Char) : Prop :=
  ∃ b u, F.text.drop i = b ++ c :: u ∧ (∀ x ∈ b, isBlank x = true) ∧ '\n' ∉ b ∧ isBlank c = false

/-- A line has no more than one next visible character. -/
theorem OnLine.unique {F : Frame π} {i : Nat} {c c' : Char} (h : F.OnLine i c)
    (h' : F.OnLine i c') : c = c' := by
  obtain ⟨b, u, htext, hb, -, hc⟩ := h
  obtain ⟨b', u', htext', hb', -, hc'⟩ := h'
  have hfirst : firstVisible (F.text.drop i) = some c := htext ▸ firstVisible_append hb hc
  rw [htext', firstVisible_append hb' hc'] at hfirst
  exact (Option.some.inj hfirst).symm

theorem OnLine.ne_newline {F : Frame π} {i : Nat} {c : Char} (h : F.OnLine i c) : c ≠ '\n' := by
  obtain ⟨b, u, -, -, -, hc⟩ := h
  exact ne_newline_of_visible hc

@[simp] theorem deeper_toTape (F : Frame π) : F.deeper.toTape = F.toTape := rfl
@[simp] theorem deeper_cover (F : Frame π) : F.deeper.cover = F.cover := rfl
@[simp] theorem grouped_toTape (F : Frame π) (b : Bool) : (F.grouped b).toTape = F.toTape := rfl
@[simp] theorem grouped_cover (F : Frame π) (b : Bool) : (F.grouped b).cover = F.cover := rfl

end Frame

/-- A state in a frame where `p` has been consumed and `l` looked at, both latest first. -/
structure State.At (F : Frame π) (p l : List Char) (s : State π) : Prop where
  reader : s.reader.At F.toTape p l
  depth : s.depth = F.depth
  limit : s.limit = F.limit
  inGroup : s.inGroup = F.inGroup

/-- All that the source delivers has been consumed, and it has ended or failed. -/
structure State.Finished (F : Frame π) (s : State π) : Prop where
  stands : s.At F F.text.reverse []
  ended : s.reader.ended = true

theorem State.At.setReader {F : Frame π} {p l p' l' : List Char} {s : State π} {r : Reader π}
    (hs : s.At F p l) (hr : r.At F.toTape p' l') : State.At F p' l' { s with reader := r } :=
  ⟨hr, hs.depth, hs.limit, hs.inGroup⟩

/-- A level that has been entered can be left. -/
theorem State.At.depth_ne_zero {F : Frame π} {p l : List Char} {s : State π}
    (hs : s.At F.deeper p l) : s.depth ≠ 0 := by
  rw [hs.depth]
  exact Nat.succ_ne_zero F.depth

/-- Less is left behind more characters. -/
theorem State.At.left_lt {F : Frame π} {p q : List Char} {s s' : State π} (hs : s.At F p [])
    (hs' : s'.At F q []) (hlt : p.length < q.length) : s'.reader.left < s.reader.left := by
  have hleft := hs.reader.left
  have hleft' := hs'.reader.left
  omega

namespace Grammar

theorem bind_apply (g : Grammar π α) (f : α → Grammar π β) (s : State π) :
    (g >>= f) s = f (g s).1 (g s).2 := rfl

theorem reading_bind (step : Reader π → α × Reader π) (f : α → Grammar π β) (s : State π) :
    (reading step >>= f) s = f (step s.reader).1 { s with reader := (step s.reader).2 } := rfl

theorem before_apply {s : State π} {q : π} {c : Char} (hc : c ≠ '\n') :
    before q c s = (s.reader.meter.before q c, s) := by
  simp [before, reading, Reader.checkStepBack, hc]

theorem ascend_apply {s : State π} (h : s.depth ≠ 0) :
    ascend s = ((), { s with depth := s.depth - 1 }) := by
  have hdepth : depth s = (s.depth, s) := rfl
  rw [ascend, bind_apply, hdepth]
  simp only [h, decide_false, whenever]
  rfl

/-- A level that is entered is left again. -/
theorem nested_apply {g : Grammar π α} {s : State π}
    (h : (g { s with depth := s.depth + 1 }).2.depth ≠ 0) :
    nested g s = ((g { s with depth := s.depth + 1 }).1,
      { (g { s with depth := s.depth + 1 }).2 with
        depth := (g { s with depth := s.depth + 1 }).2.depth - 1 }) := by
  rw [nested, bind_apply, bind_apply, bind_apply]
  show (_, (ascend (g { s with depth := s.depth + 1 }).2).2) = _
  rw [ascend_apply h]
  rfl

/-- From states with `P`, `g` leads to a result and a state with `Q`. -/
def Ensures (P : State π → Prop) (g : Grammar π α) (Q : α → State π → Prop) : Prop :=
  ∀ s, P s → Q (g s).1 (g s).2

/-- Reading has come to the index `n` or further, nothing is looked at, and the result and the
index satisfy `Q`. -/
def Onward (F : Frame π) (n : Nat) (Q : α → Nat → Prop) (a : α) (s : State π) : Prop :=
  ∃ q, n ≤ q.length ∧ s.At F q [] ∧ Q a q.length

theorem Onward.mono {F : Frame π} {m n : Nat} {Q R : α → Nat → Prop} {a : α} {s : State π}
    (h : Onward F n Q a s) (hmn : m ≤ n) (hQR : ∀ j, n ≤ j → Q a j → R a j) : Onward F m R a s := by
  obtain ⟨q, hq, hs, hQ⟩ := h
  exact ⟨q, by omega, hs, hQR _ hq hQ⟩

/-- What `g` reads, if anything, lies where it was read. -/
def Reads (F : Frame π) (within : α → Nat → Nat → Prop) (g : Grammar π (Option α)) : Prop :=
  ∀ p, Ensures (State.At F p []) g
    (Onward F p.length fun r j => ∀ x ∈ r, within x p.length j)

variable {F : Frame π} {p l : List Char} {P : State π → Prop} {Q : β → State π → Prop}

/-! ## What is ahead -/

theorem getElem?_of_drop {cs u : List Char} {n : Nat} {c : Char} (h : cs.drop n = c :: u) :
    cs[n]? = some c := by
  rw [← List.head?_drop, h, List.head?_cons]

theorem drop_add {cs v u : List Char} {n : Nat} (h : cs.drop n = v ++ u) :
    cs.drop (n + v.length) = u := by
  rw [← List.drop_drop, h, List.drop_left]

theorem drop_succ {cs u : List Char} {n : Nat} {c : Char} (h : cs.drop n = c :: u) :
    cs.drop (n + 1) = u :=
  drop_add (v := [c]) h

theorem unread_of_drop {u : List Char} {s : State π} (hs : s.At F p [])
    (hu : F.text.drop p.length = u) : s.reader.unread = u := by
  rw [hs.reader.unread_eq]
  exact hu

/-! ## Sequencing -/

namespace Ensures

theorem pure {b : β} (h : ∀ s, P s → Q b s) : Ensures P (pure b) Q := h

theorem weaken {g : Grammar π β} {R : β → State π → Prop} (h : Ensures P g R)
    (hRQ : ∀ b s, R b s → Q b s) : Ensures P g Q :=
  fun s hs => hRQ _ _ (h s hs)

theorem bind {g : Grammar π α} {f : α → Grammar π β} {R : α → State π → Prop}
    (hg : Ensures P g R) (hf : ∀ a, Ensures (R a) (f a) Q) : Ensures P (g >>= f) Q :=
  fun s hs => hf _ _ (hg s hs)

theorem ite {c : Prop} [Decidable c] {g g' : Grammar π β} (h : c → Ensures P g Q)
    (h' : ¬c → Ensures P g' Q) : Ensures P (if c then g else g') Q := by
  split
  · exact h ‹c›
  · exact h' ‹¬c›

theorem of_exists {ι : Type} {P : ι → State π → Prop} {g : Grammar π β}
    (h : ∀ i, Ensures (P i) g Q) : Ensures (fun s => ∃ i, P i s) g Q :=
  fun s ⟨i, hs⟩ => h i s hs

theorem of_and {a : Prop} {P : State π → Prop} {g : Grammar π β}
    (h : a → Ensures P g Q) : Ensures (fun s => a ∧ P s) g Q :=
  fun s ⟨ha, hs⟩ => h ha s hs

theorem of_and_right {a : Prop} {P : State π → Prop} {g : Grammar π β}
    (h : a → Ensures P g Q) : Ensures (fun s => P s ∧ a) g Q :=
  fun s ⟨hs, ha⟩ => h ha s hs

/-- A part of the grammar that something follows. -/
theorem call {g : Grammar π α} {f : α → Grammar π β} {m : Nat} {R : α → Nat → Prop}
    (hg : Ensures P g (Onward F m R))
    (hf : ∀ a q, m ≤ q.length → R a q.length → Ensures (State.At F q []) (f a) Q) :
    Ensures P (g >>= f) Q := by
  intro s hs
  obtain ⟨q, hq, hs', hR⟩ := hg s hs
  exact hf _ q hq hR _ hs'

/-- A part of the grammar that comes last. -/
theorem tail {g : Grammar π β} {m n : Nat} {R Q : β → Nat → Prop}
    (hg : Ensures P g (Onward F m R)) (hn : n ≤ m) (hRQ : ∀ b j, m ≤ j → R b j → Q b j) :
    Ensures P g (Onward F n Q) :=
  hg.weaken fun b _ h => h.mono hn (hRQ b)

/-- A part of the grammar whose result is passed on in another form. -/
theorem mapped {g : Grammar π α} {k : α → β} {n : Nat} {R : α → Nat → Prop} {Q : β → Nat → Prop}
    (hg : Ensures P g (Onward F n R)) (hRQ : ∀ a j, R a j → Q (k a) j) :
    Ensures P (g >>= fun a => Pure.pure (k a)) (Onward F n Q) := by
  intro s hs
  obtain ⟨q, hq, hs', hR⟩ := hg s hs
  exact ⟨q, hq, hs', hRQ _ _ hR⟩

/-- A result where nothing is looked at. -/
theorem done {b : β} {n : Nat} {Q : β → Nat → Prop} (hn : n ≤ p.length) (hQ : Q b p.length) :
    Ensures (State.At F p []) (Pure.pure b) (Onward F n Q) :=
  .pure fun _ hs => ⟨p, hn, hs, hQ⟩

/-- A step that comes last and leads where nothing is looked at. -/
theorem ending {g : Grammar π Unit} {q : List Char} {n : Nat} {Q : Unit → Nat → Prop}
    (hg : Ensures P g fun _ => State.At F q []) (hn : n ≤ q.length) (hQ : Q () q.length) :
    Ensures P g (Onward F n Q) :=
  hg.weaken fun _ _ hs => ⟨q, hn, hs, hQ⟩

/-! ## Steps of the reader -/

theorem accept_moves : Ensures (State.At F p l) Grammar.accept fun _ => State.At F (l ++ p) [] :=
  fun _ hs => hs.setReader hs.reader.accept

theorem adjusting {step : Reader π → Reader π} {f : Unit → Grammar π β} {p' l' : List Char}
    (hstep : ∀ r : Reader π, r.At F.toTape p l → (step r).At F.toTape p' l')
    (h : Ensures (State.At F p' l') (f ()) Q) :
    Ensures (State.At F p l) (Grammar.adjusting step >>= f) Q :=
  fun _ hs => h _ (hs.setReader (hstep _ hs.reader))

theorem accept {f : Unit → Grammar π β} (h : Ensures (State.At F (l ++ p) []) (f ()) Q) :
    Ensures (State.At F p l) (Grammar.accept >>= f) Q :=
  .adjusting (fun _ hr => hr.accept) h

theorem retreat {f : Unit → Grammar π β} (h : Ensures (State.At F p []) (f ()) Q) :
    Ensures (State.At F p l) (Grammar.retreat >>= f) Q :=
  .adjusting (fun _ hr => hr.retreat) h

theorem putBack {c : Char} {f : Unit → Grammar π β} (hc : c ≠ '\n')
    (h : Ensures (State.At F p []) (f ()) Q) :
    Ensures (State.At F (c :: p) l) (Grammar.putBack c >>= f) Q :=
  .adjusting (fun _ hr => (hr.putBack hc).1) h

theorem peek {f : Option Char → Grammar π β} (hnone : Ensures (State.At F p []) (f none) Q)
    (hsome : ∀ c, Ensures (State.At F p (c :: l)) (f (some c)) Q) :
    Ensures (State.At F p l) (Grammar.peek >>= f) Q := by
  intro s hs
  rw [Grammar.peek, reading_bind]
  match hu : s.reader.unread with
  | [] =>
    obtain ⟨r, hpeek, hr, _⟩ := hs.reader.peek_nil hu
    rw [hpeek]
    exact hnone _ (hs.setReader hr)
  | c :: u =>
    obtain ⟨r, hpeek, hr, _⟩ := hs.reader.peek_cons hu
    rw [hpeek]
    exact hsome c _ (hs.setReader hr)

theorem read {f : Option Char → Grammar π β} (hnone : Ensures (State.At F p []) (f none) Q)
    (hsome : ∀ c, Ensures (State.At F (c :: p) []) (f (some c)) Q) :
    Ensures (State.At F p []) (Grammar.read >>= f) Q := by
  intro s hs
  rw [Grammar.read, reading_bind]
  match hu : s.reader.unread with
  | [] =>
    obtain ⟨r, hread, hr, _⟩ := hs.reader.read_nil hu
    rw [hread]
    exact hnone _ (hs.setReader hr)
  | c :: u =>
    obtain ⟨r, hread, hr, _⟩ := hs.reader.read_cons hu
    rw [hread]
    exact hsome c _ (hs.setReader hr)

theorem peekMany {n : Nat} {f : Option (List Char) → Grammar π β}
    (hnone : Ensures (State.At F p []) (f none) Q)
    (hsome : ∀ cs, Ensures (State.At F p (cs.reverse ++ l)) (f (some cs)) Q) :
    Ensures (State.At F p l) (Grammar.peekMany n >>= f) Q := by
  intro s hs
  rw [Grammar.peekMany, reading_bind]
  rcases Nat.lt_or_ge s.reader.unread.length n with hn | hn
  · obtain ⟨r, hmany, hr, _⟩ := hs.reader.peekMany_none n hn
    rw [hmany]
    exact hnone _ (hs.setReader hr)
  · obtain ⟨r, hmany, hr, _⟩ := hs.reader.peekMany_some n hn
    rw [hmany]
    exact hsome _ _ (hs.setReader hr)

/-- Looking over blanks to the next visible character. -/
theorem peekOverBlanks {f : Option (Char × Nat) → Grammar π β}
    (hnone : Ensures (State.At F p []) (f none) Q)
    (hsome : ∀ b c, (∀ x ∈ b, isBlank x = true) → isBlank c = false →
      Ensures (State.At F p (c :: (b ++ l))) (f (some (c, b.count '\n'))) Q) :
    Ensures (State.At F p l) (Grammar.peekVisible >>= f) Q := by
  intro s hs
  rw [Grammar.peekVisible, reading_bind]
  rcases Reader.blank_or_visible s.reader.unread with hall | ⟨b, c, v, hu, hb, hc⟩
  · obtain ⟨r, hpeek, hr, _⟩ := hs.reader.peekVisible_none hall
    rw [hpeek]
    exact hnone _ (hs.setReader hr)
  · obtain ⟨r, hpeek, hr, _⟩ := hs.reader.peekVisible_some hu hb hc
    rw [hpeek, ← List.count_reverse]
    exact hsome _ c (fun x hx => hb x (List.mem_reverse.mp hx)) hc _ (hs.setReader hr)

theorem peekVisible {f : Option (Char × Nat) → Grammar π β}
    (hnone : Ensures (State.At F p []) (f none) Q)
    (hsome : ∀ b c, isBlank c = false →
      Ensures (State.At F p (c :: (b ++ l))) (f (some (c, b.count '\n'))) Q) :
    Ensures (State.At F p l) (Grammar.peekVisible >>= f) Q :=
  .peekOverBlanks hnone fun b c _ => hsome b c

theorem acceptExactly {cs : List Char} {f : Bool → Grammar π β}
    (hyes : Ensures (State.At F (cs.reverse ++ p) []) (f true) Q)
    (hno : Ensures (State.At F p []) (f false) Q) :
    Ensures (State.At F p []) (Grammar.acceptExactly cs >>= f) Q := by
  rw [Grammar.acceptExactly, bind_assoc]
  refine .peekMany hno fun seen => ?_
  by_cases hseen : seen = cs
  · subst hseen
    simpa using Ensures.accept (l := seen.reverse) hyes
  · simpa [hseen] using Ensures.retreat (l := seen.reverse) hno

/-- Reading over blanks to the next visible character. -/
theorem readOverBlanks {f : Option Char → Grammar π β}
    (hnone : ∀ b, (∀ x ∈ b, isBlank x = true) → b ++ p = F.text.reverse →
      Ensures (State.At F (b ++ p) []) (f none) Q)
    (hsome : ∀ b c, (∀ x ∈ b, isBlank x = true) → isBlank c = false →
      Ensures (State.At F (c :: (b ++ p)) []) (f (some c)) Q) :
    Ensures (State.At F p []) (Grammar.readVisible >>= f) Q := by
  intro s hs
  rw [Grammar.readVisible, reading_bind]
  rcases Reader.blank_or_visible s.reader.unread with hall | ⟨b, c, v, hu, hb, hc⟩
  · obtain ⟨r, hread, hr, _⟩ := hs.reader.readVisible_none hall
    have htext : s.reader.unread.reverse ++ p = F.text.reverse := by
      simp [← hs.reader.text]
    rw [hread]
    exact hnone _ (fun x hx => hall x (List.mem_reverse.mp hx)) htext _ (hs.setReader hr)
  · obtain ⟨r, hread, hr, _⟩ := hs.reader.readVisible_some hu hb hc
    rw [hread]
    exact hsome _ c (fun x hx => hb x (List.mem_reverse.mp hx)) hc _ (hs.setReader hr)

theorem readVisible {f : Option Char → Grammar π β}
    (hnone : p.length ≤ F.text.length → Ensures (State.At F F.text.reverse []) (f none) Q)
    (hsome : ∀ b c, isBlank c = false → Ensures (State.At F (c :: (b ++ p)) []) (f (some c)) Q) :
    Ensures (State.At F p []) (Grammar.readVisible >>= f) Q := by
  refine .readOverBlanks (fun b _ htext => ?_) fun b c _ => hsome b c
  rw [htext]
  refine hnone ?_
  have hlength := congrArg List.length htext
  simp at hlength
  omega

/-- Looking over the blanks of a line to its next visible character. -/
theorem peekOverLine {f : Option Char → Grammar π β} (hnone : Ensures (State.At F p []) (f none) Q)
    (hsome : ∀ b c, LineBlanks b → isBlank c = false →
      Ensures (State.At F p (c :: (b ++ l))) (f (some c)) Q) :
    Ensures (State.At F p l) (Grammar.peekOnLine >>= f) Q := by
  rw [Grammar.peekOnLine, bind_assoc]
  refine .peekOverBlanks hnone fun b c hb hc => ?_
  rcases Nat.eq_zero_or_pos (b.count '\n') with h0 | h0
  · have hline : LineBlanks b := fun x hx => ⟨hb x hx, fun h => List.count_eq_zero.mp h0 (h ▸ hx)⟩
    simpa [h0] using hsome b c hline hc
  · simpa [Nat.ne_of_gt h0] using Ensures.retreat hnone

theorem peekOnLine {f : Option Char → Grammar π β} (hnone : Ensures (State.At F p []) (f none) Q)
    (hsome : ∀ b c, isBlank c = false → Ensures (State.At F p (c :: (b ++ l))) (f (some c)) Q) :
    Ensures (State.At F p l) (Grammar.peekOnLine >>= f) Q :=
  .peekOverLine hnone fun b c _ => hsome b c

/-! ## What is known to come next -/

/-- What has been looked at first is the next character of the text. -/
theorem known {c : Char} {g : Grammar π β}
    (h : F.text[p.length]? = some c → Ensures (State.At F p (l ++ [c])) g Q) :
    Ensures (State.At F p (l ++ [c])) g Q := by
  intro s hs
  refine h ?_ s hs
  simp [← hs.reader.text]

/-- What has been looked at next stands behind it in the text. -/
theorem knownBehind {c x : Char} {g : Grammar π β}
    (h : F.text[p.length + 1]? = some x → Ensures (State.At F p [x, c]) g Q) :
    Ensures (State.At F p [x, c]) g Q := by
  intro s hs
  refine h ?_ s hs
  simp [← hs.reader.text]

/-- The character consumed last was the next one of the text. -/
theorem known_of_consumed {c : Char} {g : Grammar π β}
    (h : F.text[p.length]? = some c → Ensures (State.At F (c :: p) l) g Q) :
    Ensures (State.At F (c :: p) l) g Q := by
  intro s hs
  exact h (Reader.At.known (b := []) hs.reader) s hs

/-- A character that is known to come next is found there. -/
theorem peekKnown {c : Char} {f : Option Char → Grammar π β} (hc : F.text[p.length]? = some c)
    (h : Ensures (State.At F p [c]) (f (some c)) Q) :
    Ensures (State.At F p []) (Grammar.peek >>= f) Q := by
  intro s hs
  obtain ⟨u, hu⟩ := hs.reader.unread_of_known hc
  obtain ⟨r, hpeek, hr, _⟩ := hs.reader.peek_cons hu
  rw [Grammar.peek, reading_bind, hpeek]
  exact h _ (hs.setReader hr)

/-- A visible character that is known to come next is found before any new line. -/
theorem peekVisibleKnown {c : Char} {f : Option (Char × Nat) → Grammar π β}
    (hc : F.text[p.length]? = some c) (hvisible : isBlank c = false)
    (h : Ensures (State.At F p [c]) (f (some (c, 0))) Q) :
    Ensures (State.At F p []) (Grammar.peekVisible >>= f) Q := by
  intro s hs
  obtain ⟨u, hu⟩ := hs.reader.unread_of_known hc
  obtain ⟨r, hpeek, hr, _⟩ := hs.reader.peekVisible_some (b := []) hu (by simp) hvisible
  rw [Grammar.peekVisible, reading_bind, hpeek]
  exact h _ (hs.setReader hr)

/-- A visible character that is known to come next is found on the line. -/
theorem peekOnLineKnown {c : Char} {f : Option Char → Grammar π β}
    (hc : F.text[p.length]? = some c) (hvisible : isBlank c = false)
    (h : Ensures (State.At F p [c]) (f (some c)) Q) :
    Ensures (State.At F p []) (Grammar.peekOnLine >>= f) Q := by
  rw [Grammar.peekOnLine, bind_assoc]
  exact .peekVisibleKnown hc hvisible h

/-- The next visible character of the line is found. -/
theorem peekOnLineFound {c : Char} {f : Option Char → Grammar π β} (hc : F.OnLine p.length c)
    (h : ∀ b, Ensures (State.At F p (c :: b)) (f (some c)) Q) :
    Ensures (State.At F p []) (Grammar.peekOnLine >>= f) Q := by
  intro s hs
  obtain ⟨b, u, htext, hb, hline, hvisible⟩ := hc
  have hunread : s.reader.unread = b ++ c :: u := by simpa [hs.reader.unread_eq] using htext
  obtain ⟨r, hpeek, hr, _⟩ := hs.reader.peekVisible_some hunread hb hvisible
  rw [List.count_eq_zero.mpr hline] at hpeek
  rw [Grammar.peekOnLine, Grammar.peekVisible, bind_assoc, reading_bind, hpeek]
  exact h _ _ (hs.setReader hr)

/-- Looking along the line finds its next visible character, if it has one. -/
theorem peekLine {f : Option Char → Grammar π β}
    (hnone : (∀ c, ¬F.OnLine p.length c) → Ensures (State.At F p []) (f none) Q)
    (hsome : ∀ b c, (∀ x ∈ b, isBlank x = true) → F.OnLine p.length c →
      Ensures (State.At F p (c :: b)) (f (some c)) Q) :
    Ensures (State.At F p []) (Grammar.peekOnLine >>= f) Q := by
  intro s hs
  have hunread : s.reader.unread = F.text.drop p.length := by simpa using hs.reader.unread_eq
  rw [Grammar.peekOnLine, Grammar.peekVisible, bind_assoc, reading_bind]
  rcases Reader.blank_or_visible s.reader.unread with hall | ⟨b, c, v, hu, hb, hc⟩
  · obtain ⟨r, hpeek, hr, _⟩ := hs.reader.peekVisible_none hall
    rw [hpeek]
    refine hnone (fun c ⟨b, u, htext, _, _, hvisible⟩ => ?_) _ (hs.setReader hr)
    have hblank : isBlank c = true := hall c (by rw [hunread, htext]; simp)
    rw [hvisible] at hblank
    cases hblank
  · obtain ⟨r, hpeek, hr, _⟩ := hs.reader.peekVisible_some hu hb hc
    rw [hpeek]
    by_cases hline : '\n' ∈ b
    · -- the blanks in front of the next visible character are the same, with the new line in them
      have hempty : ∀ c, ¬F.OnLine p.length c := by
        rintro c' ⟨b', u, htext, hb', hline', hvisible⟩
        have hblanks := congrArg (List.takeWhile isBlank) (hu.symm.trans (hunread.trans htext))
        simp only [List.takeWhile_append_of_pos hb, List.takeWhile_append_of_pos hb',
          List.takeWhile_cons, hc, hvisible, List.append_nil, Bool.false_eq_true,
          if_false] at hblanks
        exact hline' (hblanks ▸ hline)
      have hcount : b.count '\n' ≠ 0 := fun h => List.count_eq_zero.mp h hline
      have hback : Ensures (State.At F p (c :: (b.reverse ++ [])))
          (Grammar.retreat >>= fun _ => f none) Q := .retreat (hnone hempty)
      simpa [hcount] using hback _ (hs.setReader hr)
    · rw [List.count_eq_zero.mpr hline]
      refine hsome b.reverse c (fun x hx => hb x (List.mem_reverse.mp hx))
        ⟨b, v, hunread ▸ hu, hb, hline, hc⟩ _ (hs.setReader ?_)
      simpa using hr

/-- At the end of the text, nothing is found. -/
theorem peekEnd {f : Option Char → Grammar π β} (hend : F.text.length ≤ p.length)
    (h : Ensures (State.At F p []) (f none) Q) :
    Ensures (State.At F p []) (Grammar.peek >>= f) Q := by
  intro s hs
  have hunread : s.reader.unread = [] := by
    rw [hs.reader.unread_eq]
    exact List.drop_eq_nil_of_le (by simpa using hend)
  obtain ⟨r, hpeek, hr, _⟩ := hs.reader.peek_nil hunread
  rw [Grammar.peek, reading_bind, hpeek]
  exact h _ (hs.setReader hr)

/-! ## Where it is known what is ahead -/

section

variable {u : List Char} {c : Char}

theorem peekNext {f : Option Char → Grammar π β} (hu : F.text.drop p.length = c :: u)
    (h : Ensures (State.At F p [c]) (f (some c)) Q) :
    Ensures (State.At F p []) (Grammar.peek >>= f) Q :=
  .peekKnown (getElem?_of_drop hu) h

theorem peekNothing {f : Option Char → Grammar π β} (hu : F.text.drop p.length = [])
    (h : Ensures (State.At F p []) (f none) Q) :
    Ensures (State.At F p []) (Grammar.peek >>= f) Q :=
  .peekEnd (List.drop_eq_nil_iff.mp hu) h

theorem readNext {f : Option Char → Grammar π β} (hu : F.text.drop p.length = c :: u)
    (h : Ensures (State.At F (c :: p) []) (f (some c)) Q) :
    Ensures (State.At F p []) (Grammar.read >>= f) Q := by
  intro s hs
  obtain ⟨r, hread, hr, -⟩ := hs.reader.read_cons (unread_of_drop hs hu)
  rw [Grammar.read, reading_bind, hread]
  exact h _ (hs.setReader hr)

theorem readNothing {f : Option Char → Grammar π β} (hu : F.text.drop p.length = [])
    (h : Ensures (State.At F p []) (f none) Q) :
    Ensures (State.At F p []) (Grammar.read >>= f) Q := by
  intro s hs
  obtain ⟨r, hread, hr, -⟩ := hs.reader.read_nil (unread_of_drop hs hu)
  rw [Grammar.read, reading_bind, hread]
  exact h _ (hs.setReader hr)

/-- Looking at many characters finds all of them, or none where there are too few. -/
theorem peekManyNext {n : Nat} {f : Option (List Char) → Grammar π β}
    (hu : F.text.drop p.length = u)
    (hsome : n ≤ u.length → Ensures (State.At F p (u.take n).reverse) (f (some (u.take n))) Q)
    (hnone : u.length < n → Ensures (State.At F p []) (f none) Q) :
    Ensures (State.At F p []) (Grammar.peekMany n >>= f) Q := by
  intro s hs
  have hunread := unread_of_drop hs hu
  rw [Grammar.peekMany, reading_bind]
  rcases Nat.lt_or_ge u.length n with hn | hn
  · obtain ⟨r, hmany, hr, -⟩ := hs.reader.peekMany_none n (by rwa [hunread])
    rw [hmany]
    exact hnone hn _ (hs.setReader hr)
  · obtain ⟨r, hmany, hr, -⟩ := hs.reader.peekMany_some n (by rwa [hunread])
    rw [hmany, hunread]
    rw [hunread, List.append_nil] at hr
    exact hsome hn _ (hs.setReader hr)

end

/-! ## Where only blanks are left -/

/-- Among blanks, the next character is blank if there is one. -/
theorem peekBlank {f : Option Char → Grammar π β}
    (hblank : ∀ x ∈ F.text.drop p.length, isBlank x = true)
    (hnone : Ensures (State.At F p []) (f none) Q)
    (hsome : ∀ c, isBlank c = true → Ensures (State.At F p [c]) (f (some c)) Q) :
    Ensures (State.At F p []) (Grammar.peek >>= f) Q := by
  refine .peek hnone fun c => .known (l := []) fun hknown => hsome c (hblank c ?_)
  rw [← List.head?_drop] at hknown
  exact List.mem_of_mem_head? hknown

/-- Among blanks, nothing visible is found. -/
theorem peekOnLineBlank {f : Option Char → Grammar π β}
    (hblank : ∀ x ∈ F.text.drop p.length, isBlank x = true)
    (hnone : Ensures (State.At F p []) (f none) Q) :
    Ensures (State.At F p []) (Grammar.peekOnLine >>= f) Q := by
  intro s hs
  obtain ⟨r, hpeek, hr, -⟩ :=
    hs.reader.peekVisible_none (by simpa [hs.reader.unread_eq] using hblank)
  rw [Grammar.peekOnLine, Grammar.peekVisible, bind_assoc, reading_bind, hpeek]
  exact hnone _ (hs.setReader hr)

theorem readVisibleBlank {f : Option Char → Grammar π β}
    (hblank : ∀ x ∈ F.text.drop p.length, isBlank x = true)
    (hnone : ∀ q, F.text.length ≤ q.length → Ensures (State.At F q []) (f none) Q) :
    Ensures (State.At F p []) (Grammar.readVisible >>= f) Q := by
  intro s hs
  obtain ⟨r, hread, hr, -⟩ :=
    hs.reader.readVisible_none (by simpa [hs.reader.unread_eq] using hblank)
  rw [Grammar.readVisible, reading_bind, hread]
  refine hnone _ ?_ _ (hs.setReader hr)
  rw [← hs.reader.text]
  simp
  omega

/-! ## Places, problems and levels -/

/-- A question to which the answer is known. -/
theorem asking {question : State π → α} {a : α} {f : α → Grammar π β}
    (ha : ∀ s, P s → question s = a) (h : Ensures P (f a) Q) :
    Ensures P (Grammar.asking question >>= f) Q := by
  intro s hs
  obtain rfl := ha s hs
  exact h s hs

theorem here {f : π → Grammar π β} (h : Ensures (State.At F p l) (f (F.mark p.length)) Q) :
    Ensures (State.At F p l) (Grammar.here >>= f) Q :=
  .asking (fun _ hs => hs.reader.mark) h

theorem lookedPlace {f : π → Grammar π β}
    (h : Ensures (State.At F p l) (f (F.mark (p.length + l.length))) Q) :
    Ensures (State.At F p l) (Grammar.lookedPlace >>= f) Q :=
  .asking (fun _ hs => hs.reader.lookedMark) h

/-- Whatever the bound for what is left is. -/
theorem asked {P : State π → Prop} {f : Nat → Grammar π β} (h : ∀ n, Ensures P (f n) Q) :
    Ensures P (Grammar.left >>= f) Q :=
  fun s hs => h _ s hs

theorem left {f : Nat → Grammar π β}
    (h : Ensures (State.At F p l) (f (F.budget - p.length)) Q) :
    Ensures (State.At F p l) (Grammar.left >>= f) Q := by
  refine .asking (fun s hs => ?_) h
  have hleft := hs.reader.left
  omega

theorem before {q : π} {c : Char} {f : π → Grammar π β} (hc : c ≠ '\n')
    (h : Ensures (State.At F p l) (f (F.meter.before q c)) Q) :
    Ensures (State.At F p l) (Grammar.before q c >>= f) Q := by
  intro s hs
  rw [bind_apply, before_apply hc, hs.reader.meter]
  exact h s hs

/-- Stepping back over characters consumed leads to the place in front of them. -/
theorem beforeAll {b q cs : List Char} {n : Nat} {f : π → Grammar π β} (hq : q = b ++ (cs ++ p))
    (hn : n = (cs ++ p).length) (hcs : ∀ c ∈ cs, c ≠ '\n')
    (h : Ensures (State.At F q l) (f (F.mark p.length)) Q) :
    Ensures (State.At F q l) (Grammar.beforeAll (F.mark n) cs >>= f) Q := by
  induction cs generalizing b n with
  | nil =>
    rw [hn]
    exact h
  | cons c cs ih =>
    have hc : c ≠ '\n' := hcs c (by simp)
    rw [Grammar.beforeAll, bind_assoc]
    refine .before hc fun s hs => ?_
    have hknown : F.text[(cs ++ p).length]? = some c := by
      rw [hq] at hs
      exact hs.reader.known
    rw [hn, List.cons_append, List.length_cons, Tape.mark_before hknown hc]
    exact ih (b := b ++ [c]) (by simp [hq]) rfl (fun x hx => hcs x (by simp [hx])) s hs

/-- The place of the character consumed last is the one in front of it. -/
theorem placeOf {c : Char} {f : π → Grammar π β} (hc : c ≠ '\n')
    (h : Ensures (State.At F (c :: p) []) (f (F.mark p.length)) Q) :
    Ensures (State.At F (c :: p) []) (Grammar.placeOf c >>= f) Q := by
  rw [Grammar.placeOf, bind_assoc]
  refine .here (.before hc fun s hs => ?_)
  rw [List.length_cons, Tape.mark_before (Reader.At.known (b := []) hs.reader) hc]
  exact h s hs

theorem report_stays {cause : Cause} {start stop : π} :
    Ensures (State.At F p l) (Grammar.report cause start stop) fun _ => State.At F p l :=
  fun _ hs => ⟨hs.reader, hs.depth, hs.limit, hs.inGroup⟩

theorem reportToHere_stays {cause : Cause} {start : π} :
    Ensures (State.At F p l) (Grammar.reportToHere cause start) fun _ => State.At F p l :=
  fun _ hs => ⟨hs.reader, hs.depth, hs.limit, hs.inGroup⟩

theorem reportToReach_stays {cause : Cause} {start : π} :
    Ensures (State.At F p l) (Grammar.reportToReach cause start) fun _ => State.At F p l :=
  fun _ hs => ⟨hs.reader, hs.depth, hs.limit, hs.inGroup⟩

/-- A step that changes neither the reader nor the levels. -/
theorem silent {g : Grammar π α} {f : α → Grammar π β}
    (hg : ∀ s, (g s).2.reader = s.reader ∧ (g s).2.depth = s.depth ∧ (g s).2.limit = s.limit ∧
      (g s).2.inGroup = s.inGroup)
    (h : ∀ a, Ensures (State.At F p l) (f a) Q) : Ensures (State.At F p l) (g >>= f) Q := by
  intro s hs
  obtain ⟨hr, hd, hl, hi⟩ := hg s
  exact h _ _ ⟨hr ▸ hs.reader, hd.trans hs.depth, hl.trans hs.limit, hi.trans hs.inGroup⟩

theorem report {cause : Cause} {start stop : π} {f : Unit → Grammar π β}
    (h : Ensures (State.At F p l) (f ()) Q) :
    Ensures (State.At F p l) (Grammar.report cause start stop >>= f) Q :=
  .silent (fun _ => ⟨rfl, rfl, rfl, rfl⟩) fun _ => h

theorem reportToHere {cause : Cause} {start : π} {f : Unit → Grammar π β}
    (h : Ensures (State.At F p l) (f ()) Q) :
    Ensures (State.At F p l) (Grammar.reportToHere cause start >>= f) Q :=
  .silent (fun _ => ⟨rfl, rfl, rfl, rfl⟩) fun _ => h

theorem reportToReach {cause : Cause} {start : π} {f : Unit → Grammar π β}
    (h : Ensures (State.At F p l) (f ()) Q) :
    Ensures (State.At F p l) (Grammar.reportToReach cause start >>= f) Q :=
  .silent (fun _ => ⟨rfl, rfl, rfl, rfl⟩) fun _ => h

theorem reportAtColon {cause : Cause} {stop : π} {f : Unit → Grammar π β}
    (h : Ensures (State.At F p l) (f ()) Q) :
    Ensures (State.At F p l) (Grammar.reportAtColon cause stop >>= f) Q :=
  .silent (fun _ => ⟨rfl, rfl, rfl, rfl⟩) fun _ => h

theorem noteSkip {start : π} {f : Unit → Grammar π β}
    (h : Ensures (State.At F p l) (f ()) Q) :
    Ensures (State.At F p l) (Grammar.noteSkip start >>= f) Q :=
  .silent (fun _ => ⟨rfl, rfl, rfl, rfl⟩) fun _ => h

theorem inGroup {f : Bool → Grammar π β} (h : Ensures (State.At F p l) (f F.inGroup) Q) :
    Ensures (State.At F p l) (Grammar.inGroup >>= f) Q :=
  .asking (fun _ hs => hs.inGroup) h

theorem depth {f : Nat → Grammar π β} (h : Ensures (State.At F p l) (f F.depth) Q) :
    Ensures (State.At F p l) (Grammar.depth >>= f) Q :=
  .asking (fun _ hs => hs.depth) h

theorem atLimit {f : Bool → Grammar π β}
    (h : Ensures (State.At F p l) (f (decide (F.limit ≤ F.depth))) Q) :
    Ensures (State.At F p l) (Grammar.atLimit >>= f) Q := by
  refine .asking (fun s hs => ?_) h
  rw [hs.limit, hs.depth]

theorem whenever_stays {b : Bool} {g : Grammar π Unit}
    (hg : Ensures (State.At F p l) g fun _ => State.At F p l) :
    Ensures (State.At F p l) (Grammar.whenever b g) fun _ => State.At F p l := by
  cases b with
  | false => exact .pure fun _ hs => hs
  | true => exact hg

/-- What is done on a condition comes back to where it started. -/
theorem whenever {b : Bool} {g : Grammar π Unit} {f : Unit → Grammar π β}
    (hg : b = true → Ensures (State.At F p l) g fun _ => State.At F p l)
    (h : Ensures (State.At F p l) (f ()) Q) :
    Ensures (State.At F p l) (Grammar.whenever b g >>= f) Q := by
  cases b with
  | false => exact h
  | true => exact .bind (hg rfl) fun _ => h

theorem setGroup {b : Bool} {f : Unit → Grammar π β}
    (h : Ensures (State.At (F.grouped b) p l) (f ()) Q) :
    Ensures (State.At F p l) (Grammar.setGroup b >>= f) Q :=
  fun _ hs => h _ ⟨hs.reader, hs.depth, hs.limit, rfl⟩

/-- Nothing is noted outside of edge groups. -/
theorem outsideGroup {f : Unit → Grammar π β} (hF : F.inGroup = false)
    (h : Ensures (State.At F p l) (f ()) Q) :
    Ensures (State.At F p l) (Grammar.outsideGroup >>= f) Q := by
  rw [Grammar.outsideGroup, bind_assoc]
  refine .inGroup (.whenever (fun hin => ?_) h)
  rw [hF] at hin
  cases hin

/-- A level that is entered is left again. -/
theorem nested {g : Grammar π α} {f : α → Grammar π β} {R : α → Nat → Prop}
    (hg : Ensures (State.At F.deeper p []) g (Onward F.deeper p.length R))
    (hf : ∀ a q, p.length ≤ q.length → R a q.length → Ensures (State.At F q []) (f a) Q) :
    Ensures (State.At F p []) (Grammar.nested g >>= f) Q := by
  intro s hs
  obtain ⟨q, hq, hs', hR⟩ := hg { s with depth := s.depth + 1 }
    ⟨hs.reader, by simp [Frame.deeper, hs.depth], hs.limit, hs.inGroup⟩
  rw [bind_apply, nested_apply hs'.depth_ne_zero]
  refine hf _ q hq hR _ ⟨hs'.reader, ?_, hs'.limit, hs'.inGroup⟩
  simp [hs'.depth, Frame.deeper]

end Ensures

/-! ## Repetition -/

/-- How a step of a repetition goes on: one that wants to be repeated has consumed something. -/
def Steps (F : Frame π) (n : Nat) (I Q : σ → Nat → Prop) (next : Next σ) (s : State π) : Prop :=
  match next with
  | .again g => Onward F (n + 1) I g s
  | .stop g => Onward F n Q g s

theorem Steps.again {F : Frame π} {n : Nat} {I Q : σ → Nat → Prop} {g : σ} {q : List Char}
    (hn : n < q.length) (hI : I g q.length) :
    Ensures (State.At F q []) (pure (.again g)) (Steps F n I Q) :=
  .pure fun _ hs => ⟨q, hn, hs, hI⟩

theorem Steps.stop {F : Frame π} {n : Nat} {I Q : σ → Nat → Prop} {g : σ} {q : List Char}
    (hn : n ≤ q.length) (hQ : Q g q.length) :
    Ensures (State.At F q []) (pure (.stop g)) (Steps F n I Q) :=
  .pure fun _ hs => ⟨q, hn, hs, hQ⟩

theorem repeatWithin_stop {step : σ → Grammar π (Next σ)} {n : Nat} {g g' : σ} {s : State π}
    (h : (step g s).1 = .stop g') : repeatWithin step (n + 1) g s = (g', (step g s).2) := by
  simp only [repeatWithin, left, bind_apply, asking_apply, h]
  rfl

theorem repeatWithin_again {step : σ → Grammar π (Next σ)} {n : Nat} {g g' : σ} {s : State π}
    (h : (step g s).1 = .again g') (hleft : (step g s).2.reader.left < s.reader.left) :
    repeatWithin step (n + 1) g s = repeatWithin step n g' (step g s).2 := by
  simp only [repeatWithin, left, bind_apply, asking_apply, h]
  exact congrArg (fun rest : Grammar π σ => rest (step g s).2) (if_pos hleft)

/-- A step that wants to go on without consuming anything is a breach. -/
theorem repeatWithin_stalled {step : σ → Grammar π (Next σ)} {n : Nat} {g g' : σ} {s : State π}
    (h : (step g s).1 = .again g') (hleft : ¬(step g s).2.reader.left < s.reader.left) :
    repeatWithin step (n + 1) g s = (g', (note .noProgress (step g s).2).2) := by
  simp only [repeatWithin, left, bind_apply, asking_apply, h]
  exact congrArg (fun rest : Grammar π σ => rest (step g s).2) (if_neg hleft)

/-- A bound that leaves a step for every character does not matter. -/
theorem repeatWithin_eq {step : σ → Grammar π (Next σ)} {m n : Nat} {g : σ} {s : State π}
    (hm : s.reader.left < m) (hn : s.reader.left < n) :
    repeatWithin step m g s = repeatWithin step n g s := by
  induction m generalizing n g s with
  | zero => omega
  | succ m ih =>
    obtain ⟨n, rfl⟩ : ∃ k, n = k + 1 := ⟨n - 1, by omega⟩
    cases hnext : (step g s).1 with
    | stop g' => rw [repeatWithin_stop hnext, repeatWithin_stop hnext]
    | again g' =>
      by_cases hleft : (step g s).2.reader.left < s.reader.left
      · rw [repeatWithin_again hnext hleft, repeatWithin_again hnext hleft]
        exact ih (by omega) (by omega)
      · rw [repeatWithin_stalled hnext hleft, repeatWithin_stalled hnext hleft]

/-- What is in front of a repetition does not matter if its first step leads to the same. -/
theorem repeatWithin_skip {step : σ → Grammar π (Next σ)} {n : Nat} {g : σ} {s s' : State π}
    (hstep : step g s = step g s') (hleft : s'.reader.left ≤ s.reader.left)
    (hagain : ∀ g', (step g s').1 = .again g' → (step g s').2.reader.left < s'.reader.left) :
    repeatWithin step (n + 1) g s = repeatWithin step (n + 1) g s' := by
  cases hnext : (step g s').1 with
  | stop g' =>
    rw [repeatWithin_stop hnext, repeatWithin_stop (hstep ▸ hnext), hstep]
  | again g' =>
    have hlt := hagain g' hnext
    have hlt' : (step g s).2.reader.left < s.reader.left := by
      rw [hstep]
      omega
    rw [repeatWithin_again hnext hlt, repeatWithin_again (hstep ▸ hnext) hlt', hstep]

theorem repeating_eq (step : σ → Grammar π (Next σ)) (g : σ) (s : State π) :
    repeating step g s = repeatWithin step (s.reader.left + 1) g s := rfl

theorem repeating_stop {step : σ → Grammar π (Next σ)} {g g' : σ} {s : State π}
    (h : (step g s).1 = .stop g') : repeating step g s = (g', (step g s).2) :=
  repeatWithin_stop h

theorem repeating_again {step : σ → Grammar π (Next σ)} {g g' : σ} {s : State π}
    (h : (step g s).1 = .again g') (hleft : (step g s).2.reader.left < s.reader.left) :
    repeating step g s = repeating step g' (step g s).2 := by
  rw [repeating_eq, repeatWithin_again h hleft, repeating_eq]
  exact repeatWithin_eq hleft (Nat.lt_succ_self _)

/-- A repetition whose first step ends it. -/
theorem Ensures.repeating_once {step : σ → Grammar π (Next σ)} {P : State π → Prop}
    {Q : σ → State π → Prop} {g : σ}
    (h : Ensures P (step g) fun next s => ∃ g', next = .stop g' ∧ Q g' s) :
    Ensures P (repeating step g) Q := by
  refine .asked fun n s hs => ?_
  obtain ⟨g', hstop, hQ⟩ := h s hs
  rw [repeatWithin_stop hstop]
  exact hQ

section

variable {step : σ → Grammar π (Next σ)} {I Q : σ → Nat → Prop}

/-- The steps of a repetition go on behind where it starts. -/
theorem Steps.onward {n : Nat}
    (hstep : ∀ g p, I g p.length → Ensures (State.At F p []) (step g) (Steps F p.length I Q))
    (g : σ) (p : List Char) (hg : n ≤ p.length ∧ I g p.length) :
    Ensures (State.At F p []) (step g) (Steps F p.length (fun g i => n ≤ i ∧ I g i) Q) := by
  obtain ⟨hn, hI⟩ := hg
  refine (hstep g p hI).weaken fun next s h => ?_
  cases next with
  | stop g => exact h
  | again g =>
    exact Onward.mono (R := fun g i => n ≤ i ∧ I g i) h (Nat.le_refl _) fun j hj hIj =>
      ⟨by omega, hIj⟩

theorem repeatWithin_ensures
    (hstep : ∀ g p, I g p.length → Ensures (State.At F p []) (step g) (Steps F p.length I Q))
    (n : Nat) (g : σ) (p : List Char) (hg : I g p.length) (hn : F.budget < n + p.length) :
    Ensures (State.At F p []) (repeatWithin step n g) (Onward F p.length Q) := by
  induction n generalizing g p with
  | zero =>
    intro s hs
    have := hs.reader.left
    omega
  | succ n ih =>
    rw [repeatWithin]
    refine .left (.bind (hstep g p hg) fun next => ?_)
    cases next with
    | stop g => exact .pure fun _ h => h
    | again g =>
      refine .of_exists fun q => .of_and fun hq => .of_and_right fun hI => .left (.ite ?_ ?_)
      · intro _
        exact (ih g q hI (by omega)).tail (by omega) fun _ _ _ h => h
      · intro hnot s hs
        have hleft := hs.reader.left
        omega

/-- **Repetition**: what every step keeps, the whole repetition keeps, and it never stalls. -/
theorem repeating_ensures
    (hstep : ∀ g p, I g p.length → Ensures (State.At F p []) (step g) (Steps F p.length I Q))
    {g : σ} {p : List Char} (hg : I g p.length) :
    Ensures (State.At F p []) (repeating step g) (Onward F p.length Q) := by
  refine .left ?_
  rcases Nat.lt_or_ge F.budget p.length with hlt | hle
  · intro s hs
    have hleft := hs.reader.left
    omega
  · exact repeatWithin_ensures hstep _ g p hg (by omega)

/-- What has been gathered, whether the repetition goes on or not. -/
def Next.gathered : Next σ → σ
  | .again g => g
  | .stop g => g

/-- What holds behind a step that wants to be repeated, and what holds behind one that stops. -/
def Next.Holds (J S : σ → State π → Prop) : Next σ → State π → Prop
  | .again g => J g
  | .stop g => S g

/-- What holds from step to step leads to what holds where the repetition stops. -/
theorem repeating_holds {J S : σ → State π → Prop}
    (hstep : ∀ g p, I g p.length → Ensures (State.At F p []) (step g) (Steps F p.length I Q))
    (hholds : ∀ g p, I g p.length →
      Ensures (fun s => s.At F p [] ∧ J g s) (step g) (Next.Holds J S))
    {g : σ} {p : List Char} (hg : I g p.length) :
    Ensures (fun s => s.At F p [] ∧ J g s) (repeating step g) S := by
  have hwithin : ∀ n g p, I g p.length → F.budget < n + p.length →
      Ensures (fun s => s.At F p [] ∧ J g s) (repeatWithin step n g) S := by
    intro n
    -- on the fuel: the reader moves on before a step is repeated, so that there is always enough
    induction n with
    | zero =>
      intro g p _ hn s ⟨hs, _⟩
      have hleft := hs.reader.left
      omega
    | succ n ih =>
      intro g p hg hn s ⟨hs, hJ⟩
      have hafter := hstep g p hg s hs
      have hheld := hholds g p hg s ⟨hs, hJ⟩
      cases hnext : (step g s).1 with
      | stop g' =>
        rw [hnext] at hheld
        rw [repeatWithin_stop hnext]
        exact hheld
      | again g' =>
        rw [hnext] at hafter hheld
        obtain ⟨q, hq, hat, hI⟩ := hafter
        rw [repeatWithin_again hnext (hs.left_lt hat hq)]
        exact ih g' q hI (by omega) _ ⟨hat, hheld⟩
  intro s ⟨hs, hJ⟩
  have hleft := hs.reader.left
  exact hwithin (s.reader.left + 1) g p hg (by omega) s ⟨hs, hJ⟩

/-- What holds where a step stops holds where the repetition does. -/
theorem repeating_stops {S : σ → State π → Prop}
    (hstep : ∀ g p, I g p.length → Ensures (State.At F p []) (step g) (Steps F p.length I Q))
    (hstop : ∀ g p, Ensures (State.At F p []) (step g) fun next s => ∀ g', next = .stop g' → S g' s)
    {g : σ} {p : List Char} (hg : I g p.length) :
    Ensures (State.At F p []) (repeating step g) S := by
  have hholds : ∀ g p, I g p.length →
      Ensures (fun s => s.At F p [] ∧ True) (step g) (Next.Holds (fun _ _ => True) S) := by
    intro g p _ s ⟨hs, _⟩
    have hstopped := hstop g p s hs
    cases hnext : (step g s).1 with
    | stop g' => exact hstopped g' hnext
    | again g' => trivial
  exact fun s hs => repeating_holds hstep hholds hg s ⟨hs, trivial⟩

end

end Grammar

end Diagram
