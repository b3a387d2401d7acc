import Diagram.Proofs.Tape.Over

/-!
A reader is a head on a fixed text. A head is no more than an index, the length of the lookahead
behind it, the number of characters that have been delivered, and whether the source is over; what
an operation answers and where it leads are read off the text. The places and the buffer that a
reader carries with it follow from its head, however it came there.
-/
namespace Diagram

variable {π : Type}

/-- Where a reader stands on its text. -/
structure Head where
  /-- The number of characters consumed. -/
  index : Nat
  /-- The number of characters looked at behind them. -/
  ahead : Nat
  /-- The number of characters that the source has delivered. -/
  pulled : Nat
  /-- The source has ended or failed. -/
  ended : Bool
  deriving DecidableEq, Repr

/-- What a reader can be asked to do. -/
inductive Operation where
  | read
  | peek
  | peekMany (n : Nat)
  | readVisible
  | peekVisible
  | accept
  | retreat
  | putBack (c : Char)
  deriving DecidableEq, Repr

/-- What comes of it. -/
inductive Answer where
  | done
  | char (c : Option Char)
  | chars (cs : Option (List Char))
  | visible (found : Option (Char × Nat))
  deriving DecidableEq, Repr

namespace Head

/-- The head in front of a text. -/
def start : Head := ⟨0, 0, 0, false⟩

/-- `n` characters more are looked at. -/
def look (n : Nat) (h : Head) : Head :=
  ⟨h.index, h.ahead + n, max h.pulled (h.index + h.ahead + n), h.ended⟩

/-- `n` characters more are consumed. -/
def move (n : Nat) (h : Head) : Head :=
  ⟨h.index + n, h.ahead, max h.pulled (h.index + n), h.ended⟩

/-- The end of the text has been met: the lookahead is given up. -/
def meetEnd (text : List Char) (h : Head) : Head :=
  ⟨h.index, 0, text.length, true⟩

/-- The blanks that stand at an index. -/
def blanksAt (text : List Char) (i : Nat) : List Char :=
  (text.drop i).takeWhile isBlank

end Head

namespace Operation

/-- What an operation answers on a text, and where it leads. -/
def follow (text : List Char) (h : Head) : Operation → Answer × Head
  | read =>
    match text[h.index]? with
    | some c => (.char (some c), h.move 1)
    | none => (.char none, h.meetEnd text)
  | peek =>
    match text[h.index + h.ahead]? with
    | some c => (.char (some c), h.look 1)
    | none => (.char none, h.meetEnd text)
  | peekMany n =>
    if h.index + h.ahead + n ≤ text.length then
      (.chars (some ((text.drop (h.index + h.ahead)).take n)), h.look n)
    else (.chars none, h.meetEnd text)
  | readVisible =>
    let blanks := Head.blanksAt text h.index
    match text[h.index + blanks.length]? with
    | some c => (.char (some c), h.move (blanks.length + 1))
    | none => (.char none, (h.move blanks.length).meetEnd text)
  | peekVisible =>
    let blanks := Head.blanksAt text (h.index + h.ahead)
    match text[h.index + h.ahead + blanks.length]? with
    | some c => (.visible (some (c, blanks.count '\n')), h.look (blanks.length + 1))
    | none => (.visible none, h.meetEnd text)
  | accept => (.done, ⟨h.index + h.ahead, 0, h.pulled, h.ended⟩)
  | retreat => (.done, ⟨h.index, 0, h.pulled, h.ended⟩)
  | putBack _ => (.done, ⟨h.index - 1, 0, h.pulled, h.ended⟩)

/-- Nothing is consumed while something is looked at, and what is put back is the last character
consumed and no newline. -/
def Legal (text : List Char) (h : Head) : Operation → Prop
  | read | readVisible => h.ahead = 0
  | putBack c => 0 < h.index ∧ text[h.index - 1]? = some c ∧ c ≠ '\n'
  | peek | peekMany _ | peekVisible | accept | retreat => True

instance (text : List Char) (h : Head) : (op : Operation) → Decidable (op.Legal text h)
  | read | readVisible => inferInstanceAs (Decidable (h.ahead = 0))
  | putBack c =>
    inferInstanceAs (Decidable (0 < h.index ∧ text[h.index - 1]? = some c ∧ c ≠ '\n'))
  | peek | peekMany _ | peekVisible | accept | retreat => .isTrue trivial

/-- One operation after the other. -/
def followAll (text : List Char) (h : Head) : List Operation → List Answer × Head
  | [] => ([], h)
  | op :: ops =>
    let (answer, h) := op.follow text h
    let (answers, h) := followAll text h ops
    (answer :: answers, h)

def LegalAll (text : List Char) (h : Head) : List Operation → Prop
  | [] => True
  | op :: ops => op.Legal text h ∧ LegalAll text (op.follow text h).2 ops

instance decidableLegalAll (text : List Char) : (h : Head) → (ops : List Operation) →
    Decidable (LegalAll text h ops)
  | _, [] => .isTrue trivial
  | h, op :: ops =>
    have := decidableLegalAll text (op.follow text h).2 ops
    inferInstanceAs (Decidable (op.Legal text h ∧ LegalAll text (op.follow text h).2 ops))

/-- An operation of a reader. -/
def run (r : Reader π) : Operation → Answer × Reader π
  | read => (.char r.read.1, r.read.2)
  | peek => (.char r.peek.1, r.peek.2)
  | peekMany n => (.chars (r.peekMany n).1, (r.peekMany n).2)
  | readVisible => (.char r.readVisible.1, r.readVisible.2)
  | peekVisible => (.visible r.peekVisible.1, r.peekVisible.2)
  | accept => (.done, r.accept)
  | retreat => (.done, r.retreat)
  | putBack c => (.done, r.putBack c)

def runAll (r : Reader π) : List Operation → List Answer × Reader π
  | [] => ([], r)
  | op :: ops =>
    let (answer, r) := op.run r
    let (answers, r) := runAll r ops
    (answer :: answers, r)

end Operation

namespace Reader

variable {t : Tape π} {p l : List Char} {r : Reader π}

/-- Where a reader stands on its text. -/
def head (r : Reader π) : Head :=
  ⟨r.past.length, r.looked.length, r.count, r.ended⟩

theorem At.head (h : r.At t p l) : r.head = ⟨p.length, l.length, r.count, r.ended⟩ := by
  rw [Reader.head, h.past, h.looked]

theorem At.self (h : r.At t p l) : r.At t r.past r.looked := by
  rwa [h.past, h.looked]

/-! ## What a reader does is what its head says -/

theorem At.get_eq (h : r.At t p l) (i : Nat) :
    t.text[p.length + l.length + i]? = r.unread[i]? := by
  rw [h.unread_eq, List.getElem?_drop]

theorem At.get_end (h : r.At t p l) : t.text[p.length + l.length + r.unread.length]? = none := by
  rw [h.get_eq, List.getElem?_eq_none (Nat.le_refl _)]

theorem At.get_visible {b u : List Char} {c : Char} (h : r.At t p l) (hu : r.unread = b ++ c :: u) :
    t.text[p.length + l.length + b.length]? = some c := by
  rw [h.get_eq, hu, List.getElem?_append_right (Nat.le_refl _), Nat.sub_self,
    List.getElem?_cons_zero]

theorem At.blanksAt_of_blank (h : r.At t p l) (hall : ∀ x ∈ r.unread, isBlank x = true) :
    Head.blanksAt t.text (p.length + l.length) = r.unread := by
  have htake : (r.unread ++ []).takeWhile isBlank = r.unread ++ [] := by
    rw [List.takeWhile_append_of_pos hall, List.takeWhile_nil]
  rw [Head.blanksAt, ← h.unread_eq]
  simpa using htake

theorem At.blanksAt_of_visible {b u : List Char} {c : Char} (h : r.At t p l)
    (hu : r.unread = b ++ c :: u) (hb : ∀ x ∈ b, isBlank x = true) (hc : isBlank c = false) :
    Head.blanksAt t.text (p.length + l.length) = b := by
  rw [Head.blanksAt, ← h.unread_eq, hu, List.takeWhile_append_of_pos hb, List.takeWhile_cons]
  simp [hc]

/-- A reader that does what its head says, and is left on the tape. -/
structure Follows (t : Tape π) (op : Operation) (r : Reader π) : Prop where
  stands : (op.run r).2.At t (op.run r).2.past (op.run r).2.looked
  answer : (op.follow t.text r.head).1 = (op.run r).1
  head : (op.follow t.text r.head).2 = (op.run r).2.head

theorem At.follows {op : Operation} {answer : Answer} {r' : Reader π} {p' l' : List Char}
    (hrun : op.run r = (answer, r')) (h' : r'.At t p' l')
    (hfollow : op.follow t.text r.head = (answer, ⟨p'.length, l'.length, r'.count, r'.ended⟩)) :
    Follows t op r := by
  refine ⟨?_, ?_, ?_⟩
  · rw [hrun]
    exact h'.self
  · rw [hrun, hfollow]
  · rw [hrun, hfollow, h'.head]

theorem At.peek_follows (h : r.At t p l) : Follows t .peek r := by
  have hget := h.get_eq 0
  match hu : r.unread with
  | [] =>
    obtain ⟨r', hpeek, h', hcount⟩ := h.peek_nil hu
    have hended : r'.ended = true := by simpa [hpeek] using peek_over r
    refine At.follows (by rw [Operation.run, hpeek]) h' ?_
    rw [hu, Nat.add_zero, List.getElem?_nil] at hget
    simp [Operation.follow, h.head, hget, Head.meetEnd, hcount, hended]
  | c :: u =>
    obtain ⟨r', hpeek, h', hcount⟩ := h.peek_cons hu
    have hended : r'.ended = r.ended := by simpa [hpeek] using peek_over r
    refine At.follows (by rw [Operation.run, hpeek]) h' ?_
    rw [hu, Nat.add_zero, List.getElem?_cons_zero] at hget
    simp [Operation.follow, h.head, hget, Head.look, hcount, hended]

theorem At.read_follows (h : r.At t p []) : Follows t .read r := by
  have hget := h.get_eq 0
  match hu : r.unread with
  | [] =>
    obtain ⟨r', hread, h', hcount⟩ := h.read_nil hu
    have hended : r'.ended = true := by simpa [hread] using read_over r
    refine At.follows (by rw [Operation.run, hread]) h' ?_
    rw [hu, List.getElem?_nil] at hget
    simp only [List.length_nil, Nat.add_zero] at hget
    simp [Operation.follow, h.head, hget, Head.meetEnd, hcount, hended]
  | c :: u =>
    obtain ⟨r', hread, h', hcount⟩ := h.read_cons hu
    have hended : r'.ended = r.ended := by simpa [hread] using read_over r
    refine At.follows (by rw [Operation.run, hread]) h' ?_
    rw [hu, List.getElem?_cons_zero] at hget
    simp only [List.length_nil, Nat.add_zero] at hget
    simp [Operation.follow, h.head, hget, Head.move, hcount, hended]

theorem At.peekMany_follows (h : r.At t p l) (n : Nat) : Follows t (.peekMany n) r := by
  have hlength : t.text.length = p.length + l.length + r.unread.length := by
    simp [← h.text, Nat.add_assoc]
  by_cases hn : n ≤ r.unread.length
  · obtain ⟨r', hmany, h', hcount⟩ := h.peekMany_some n hn
    have hended : r'.ended = r.ended := by simpa [hmany] using peekMany_over n r
    refine At.follows (by rw [Operation.run, hmany]) h' ?_
    have hle : p.length + l.length + n ≤ t.text.length := by omega
    simp [Operation.follow, h.head, hle, Head.look, hcount, hended, ← h.unread_eq, hn,
      Nat.add_comm n]
  · obtain ⟨r', hmany, h', hcount⟩ := h.peekMany_none n (by omega)
    have hended : r'.ended = true := by simpa [hmany] using peekMany_over n r
    refine At.follows (by rw [Operation.run, hmany]) h' ?_
    have hle : ¬ p.length + l.length + n ≤ t.text.length := by omega
    simp [Operation.follow, h.head, hle, Head.meetEnd, hcount, hended]

theorem At.peekVisible_follows (h : r.At t p l) : Follows t .peekVisible r := by
  have hunread := h.unread_le
  have hended := peekVisibleWithin_over (r.left + 1) 0 r
  rcases blank_or_visible r.unread with hall | ⟨b, c, v, hu, hb, hc⟩
  · obtain ⟨r', hpeek, h', hcount⟩ := h.peekVisible_none hall
    rw [← peekVisible, hpeek, h'.looked, h.looked, List.length_nil] at hended
    have hended : r'.ended = true := by simpa using hended
    refine At.follows (by rw [Operation.run, hpeek]) h' ?_
    simp [Operation.follow, h.head, h.blanksAt_of_blank hall, h.get_end, Head.meetEnd,
      hcount, hended]
  · obtain ⟨r', hpeek, h', hcount⟩ := h.peekVisible_some hu hb hc
    rw [← peekVisible, hpeek, h'.looked, h.looked] at hended
    rw [hu] at hunread
    have hended : r'.ended = r.ended := by
      simp only [List.length_append, List.length_cons, List.length_reverse] at hended hunread
      rcases hended with hended | hended
      · simpa using hended
      · omega
    refine At.follows (by rw [Operation.run, hpeek]) h' ?_
    have hahead : (c :: (b.reverse ++ l)).length = l.length + (b.length + 1) := by
      simp
      omega
    simp only [Operation.follow, h.head, h.blanksAt_of_visible hu hb hc, h.get_visible hu]
    simp only [Head.look, hcount, hended, hahead, Nat.add_assoc]

theorem At.readVisible_follows (h : r.At t p []) : Follows t .readVisible r := by
  have hunread := h.unread_le
  have hended := readVisibleWithin_over (r.left + 1) r
  rcases blank_or_visible r.unread with hall | ⟨b, c, v, hu, hb, hc⟩
  · obtain ⟨r', hread, h', hcount⟩ := h.readVisible_none hall
    rw [← readVisible, hread, h'.past, h.past] at hended
    -- nothing is left, so the last read has come to the end of the source
    have hended : r'.ended = true := by
      simp only [List.length_append, List.length_nil, List.length_reverse] at hended hunread
      rcases hended with hended | hended
      · simpa using hended
      · omega
    refine At.follows (by rw [Operation.run, hread]) h' ?_
    have hget : t.text[p.length + r.unread.length]? = none := h.get_end
    have hblanks : Head.blanksAt t.text p.length = r.unread := h.blanksAt_of_blank hall
    have hindex : (r.unread.reverse ++ p).length = p.length + r.unread.length := by
      simp [Nat.add_comm]
    simp only [Operation.follow, h.head, hblanks, hget]
    simp only [Head.move, Head.meetEnd, hcount, hended, hindex, List.length_nil]
  · obtain ⟨r', hread, h', hcount⟩ := h.readVisible_some hu hb hc
    rw [← readVisible, hread, h'.past, h.past] at hended
    rw [hu] at hunread
    have hended : r'.ended = r.ended := by
      simp only [List.length_append, List.length_cons, List.length_nil, List.length_reverse]
        at hended hunread
      rcases hended with hended | hended
      · simpa using hended
      · omega
    refine At.follows (by rw [Operation.run, hread]) h' ?_
    have hget : t.text[p.length + b.length]? = some c := h.get_visible hu
    have hblanks : Head.blanksAt t.text p.length = b := h.blanksAt_of_visible hu hb hc
    have hindex : (c :: (b.reverse ++ p)).length = p.length + (b.length + 1) := by
      simp
      omega
    simp only [Operation.follow, h.head, hblanks, hget]
    simp only [Head.move, hcount, hended, hindex, List.length_nil, Nat.add_assoc]

theorem At.accept_follows (h : r.At t p l) : Follows t .accept r := by
  have hended : r.accept.ended = r.ended := rfl
  refine At.follows rfl h.accept ?_
  rw [count_accept, hended]
  simp [Operation.follow, h.head, Nat.add_comm]

theorem At.retreat_follows (h : r.At t p l) : Follows t .retreat r := by
  have hended : r.retreat.ended = r.ended := rfl
  refine At.follows rfl h.retreat ?_
  rw [count_retreat, hended]
  simp [Operation.follow, h.head]

theorem At.putBack_follows {c : Char} (h : r.At t (c :: p) l) (hc : c ≠ '\n') :
    Follows t (.putBack c) r := by
  obtain ⟨h', hcount⟩ := h.putBack hc
  refine At.follows rfl h' ?_
  simp [Operation.follow, h.head, hcount, putBack_over]

end Reader

open Reader

variable {t : Tape π} {r : Reader π} {op : Operation} {ops : List Operation}

/-- **One operation**: a legal operation of a reader does what its head says. -/
theorem Operation.run_follows (h : r.At t r.past r.looked) (hlegal : op.Legal t.text r.head) :
    Follows t op r := by
  cases op with
  | read =>
    have hlooked : r.looked = [] := List.eq_nil_of_length_eq_zero hlegal
    rw [hlooked] at h
    exact h.read_follows
  | readVisible =>
    have hlooked : r.looked = [] := List.eq_nil_of_length_eq_zero hlegal
    rw [hlooked] at h
    exact h.readVisible_follows
  | peek => exact h.peek_follows
  | peekMany n => exact h.peekMany_follows n
  | peekVisible => exact h.peekVisible_follows
  | accept => exact h.accept_follows
  | retreat => exact h.retreat_follows
  | putBack c =>
    obtain ⟨hpos, hlast, hc⟩ := hlegal
    match hpast : r.past with
    | [] => simp [Reader.head, hpast] at hpos
    | x :: p =>
      rw [hpast] at h
      -- what has been consumed last is the character in front of the index
      have hx : t.text[p.length]? = some x := At.known (b := []) h
      obtain rfl : x = c := by simpa [Reader.head, hpast, hx] using hlast
      exact h.putBack_follows hc

/-- **Many operations**: any run of legal operations does what its head says. -/
theorem Operation.runAll_follows (h : r.At t r.past r.looked)
    (hlegal : LegalAll t.text r.head ops) :
    (runAll r ops).2.At t (runAll r ops).2.past (runAll r ops).2.looked ∧
      followAll t.text r.head ops = ((runAll r ops).1, (runAll r ops).2.head) := by
  induction ops generalizing r with
  | nil => exact ⟨h, rfl⟩
  | cons op ops ih =>
    obtain ⟨hop, hrest⟩ := hlegal
    have hstep := run_follows h hop
    rw [hstep.head] at hrest
    obtain ⟨hend, hall⟩ := ih hstep.stands hrest
    refine ⟨hend, ?_⟩
    simp only [followAll, runAll, hstep.answer, hstep.head, hall]

/-! ## An operation does not ask a source that is over -/

theorem Operation.run_deaf (op : Operation) : Deaf fun r : Reader π => op.run r := by
  cases op with
  | read => exact read_deaf.map Answer.char
  | peek => exact peek_deaf.map Answer.char
  | peekMany n => exact (peekMany_deaf n).map Answer.chars
  | readVisible =>
    exact ⟨fun r h => (readVisibleWithin_deaf (r.left + 1)).ended r h,
      fun r source h => ((readVisibleWithin_deaf (r.left + 1)).map Answer.char).refill r source h⟩
  | peekVisible =>
    exact ⟨fun r h => (peekVisibleWithin_deaf (r.left + 1) 0).ended r h,
      fun r source h =>
        ((peekVisibleWithin_deaf (r.left + 1) 0).map Answer.visible).refill r source h⟩
  | accept | retreat => exact ⟨fun r h => h, fun r source h => rfl⟩
  | putBack c => exact putBack_deaf Answer.done c

theorem Operation.runAll_deaf (ops : List Operation) : Deaf fun r : Reader π => runAll r ops := by
  induction ops with
  | nil => exact .answer []
  | cons op ops ih =>
    refine ⟨fun r h => ih.ended _ (op.run_deaf.ended r h), fun r source h => ?_⟩
    have hrest := ih.refill _ source (op.run_deaf.ended r h)
    simp only [runAll, op.run_deaf.refill r source h, hrest]

/-! ## A run over a whole source -/

/-- The places and the buffer of a reader are those that its head has on the text. -/
structure Reader.Stands (counting : Counting) (text : List Char) (h : Head)
    (r : Reader Position) : Prop where
  bounds : h.index + h.ahead ≤ h.pulled ∧ h.pulled ≤ text.length
  place : r.place = .after counting (text.take h.index)
  lookedPlace : r.lookedPlace = .after counting (text.take (h.index + h.ahead))
  reach : r.reach = .after counting (text.take h.pulled)
  lookahead : r.looked.length = h.ahead
  buffer : r.looked.reverse ++ r.queued = (text.take h.pulled).drop h.index
  ended : r.ended = h.ended
  undelivered : h.ended = false → delivered r.source = text.drop h.pulled
  breach : r.breach = none

theorem Reader.At.stands {counting : Counting} {t : Tape Position} {r : Reader Position}
    {p l : List Char} (hmeter : t.meter = counting.meter) (h : r.At t p l) :
    r.Stands counting t.text r.head := by
  have hmark (i : Nat) : t.mark i = Position.after counting (t.text.take i) := by
    rw [Tape.mark, hmeter]
    rfl
  have hcount := h.count_eq
  have htext : t.text = p.reverse ++ (l.reverse ++ r.queued) ++
      bif r.ended then [] else delivered r.source := by
    rw [← h.text, unread]
    simp only [List.append_assoc]
  have hpulled : (p.reverse ++ (l.reverse ++ r.queued)).length = r.count := by
    simp [hcount, Nat.add_assoc]
  rw [h.head]
  refine ⟨⟨by simp only; omega, h.count_le⟩, ?_, ?_, ?_, ?_, ?_, rfl, ?_, h.breach⟩
  · rw [← hmark]
    exact h.mark
  · rw [← hmark]
    exact h.lookedMark
  · rw [← hmark]
    exact h.reachMark
  · rw [h.looked]
  · rw [h.looked, htext, List.take_left' hpulled, List.drop_left' List.length_reverse]
  · intro hover
    rw [htext, List.drop_left' hpulled]
    simp only at hover
    rw [hover, cond_false]

/-- **A reader is a head on a tape.** Whatever legal operations a reader goes through on a source,
it answers with the characters that its head has on the text and stands where its head is. Once the
source has ended or failed it makes no difference what more it would deliver,
and that is left undelivered. -/
theorem Reader.follows_tape (counting : Counting) (source : List Delivery) (ops : List Operation)
    (hops : Operation.LegalAll (delivered source) .start ops) :
    ∃ answers head r,
      Operation.runAll (.ofSource counting.meter source) ops = (answers, r) ∧
      Operation.followAll (delivered source) .start ops = (answers, head) ∧
      r.Stands counting (delivered source) head ∧
      (head.ended = true → ∀ (more : List Operation) (source' : List Delivery),
        Operation.runAll { r with source := source' } more =
          ((Operation.runAll r more).1,
            { (Operation.runAll r more).2 with source := source' })) := by
  have hstart := Reader.ofSource_at counting.meter_lawful source
  obtain ⟨hend, hfollow⟩ := Operation.runAll_follows hstart.self hops
  refine ⟨_, _, _, rfl, hfollow, hend.stands rfl, fun hover more source' => ?_⟩
  exact (Operation.runAll_deaf more).refill _ source' hover

/-- A source that fails, and what it would deliver behind its failure. -/
theorem Reader.follows_tape_failing :
    let source : List Delivery := [.ok 'a', .ok '😀', .ok '\n', .ok 'b', .error "cut", .ok 'c']
    let ops : List Operation := [.read, .peek, .peekMany 5, .read, .putBack '😀', .peek, .accept,
      .peekVisible, .accept, .read]
    Operation.LegalAll (delivered source) .start ops ∧
      ∃ r, Operation.runAll (.ofSource Counting.units16.meter source) ops =
        ([.char (some 'a'), .char (some '😀'), .chars none, .char (some '😀'), .done,
          .char (some '😀'), .done, .visible (some ('b', 1)), .done, .char none], r) ∧
        r.place = ⟨1, 1, 5⟩ := by
  intro source ops
  have hlegal : Operation.LegalAll (delivered source) .start ops := by decide
  obtain ⟨answers, head, r, hrun, hfollow, hstands, -⟩ :=
    Reader.follows_tape .units16 source ops hlegal
  have hsteps : Operation.followAll (delivered source) .start ops =
      ([.char (some 'a'), .char (some '😀'), .chars none, .char (some '😀'), .done,
        .char (some '😀'), .done, .visible (some ('b', 1)), .done, .char none],
        ⟨4, 0, 4, true⟩) := by
    decide
  obtain ⟨rfl, rfl⟩ := Prod.mk.inj (hfollow.symm.trans hsteps)
  exact ⟨hlegal, r, hrun, hstands.place.trans (by decide)⟩

end Diagram
