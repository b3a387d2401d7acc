import Diagram.Grammar.Container
import Diagram.Proofs.Logic

/-!
Skipping over balanced text. A container that is skipped is read up to the bracket that balances its
opening bracket, and brackets of the other kind are not counted. If all brackets between the two are
balanced, nothing else is found wrong on the way.
-/
namespace Diagram

/-- The two kinds of brackets, as an opening and a closing character. -/
inductive Brackets : Char → Char → Prop
  | braces : Brackets '{' '}'
  | squares : Brackets '[' ']'

/-- A character that opens or closes something. -/
def isBracket (c : Char) : Bool :=
  c ∈ ['{', '}', '[', ']']

/-- What holds of no bracket tells characters that are none. -/
theorem isBracket_eq_false {P : Char → Prop} (h : ¬P '{' ∧ ¬P '}' ∧ ¬P '[' ∧ ¬P ']') {c : Char}
    (hc : P c) : isBracket c = false := by
  rw [isBracket, decide_eq_false_iff_not]
  intro hbracket
  simp only [List.mem_cons, List.not_mem_nil, or_false] at hbracket
  obtain ⟨hopening, hclosing, hopening', hclosing'⟩ := h
  rcases hbracket with rfl | rfl | rfl | rfl <;> contradiction

/-- Text in which every bracket stands opposite to one of its kind, with such a text in between. -/
inductive Balanced : List Char → Prop
  | nil : Balanced []
  | plain {c : Char} {cs : List Char} (hc : isBracket c = false) (h : Balanced cs) :
    Balanced (c :: cs)
  | enclosed {opening closing : Char} {cs ds : List Char} (hkind : Brackets opening closing)
    (h : Balanced cs) (h' : Balanced ds) : Balanced (opening :: (cs ++ closing :: ds))

theorem Brackets.isBracket {opening closing : Char} (h : Brackets opening closing) :
    isBracket opening = true ∧ isBracket closing = true := by
  cases h <;> decide

namespace Balanced

theorem append {cs ds : List Char} (h : Balanced cs) (h' : Balanced ds) : Balanced (cs ++ ds) := by
  induction h with
  | nil => exact h'
  | plain hc _ ih => exact .plain hc ih
  | enclosed hkind hinner _ _ ih =>
    rw [List.cons_append, List.append_assoc, List.cons_append]
    exact .enclosed hkind hinner ih

theorem single {c : Char} (hc : isBracket c = false) : Balanced [c] :=
  .plain hc .nil

/-- Text without brackets. -/
theorem of_plain {cs : List Char} (h : ∀ c ∈ cs, isBracket c = false) : Balanced cs := by
  induction cs with
  | nil => exact .nil
  | cons c cs ih => exact .plain (h c (by simp)) (ih fun x hx => h x (by simp [hx]))

end Balanced

namespace Grammar

variable {π : Type} {F : Frame π} {opening closing : Char} {a b : List Char}

/-- What skipping takes a character for inside `nesting` brackets. -/
def skipped (opening closing : Char) (nesting : Nat) (c : Char) : Next Nat :=
  if c = opening then .again (nesting + 1)
  else if c = closing then (if nesting - 1 = 0 then .stop 0 else .again (nesting - 1))
  else .again nesting

variable (opening closing) in
theorem skipCharacter_eq {nesting : Nat} (hnesting : 0 < nesting) {s : State π} {r : Reader π}
    {c : Char} (hread : s.reader.read = (some c, r)) :
    skipCharacter opening closing nesting s =
      (skipped opening closing nesting c, { s with reader := r }) := by
  have h0 : decide (nesting = 0) = false := decide_eq_false (Nat.ne_of_gt hnesting)
  rw [skipCharacter, read, reading_bind, hread, skipped]
  dsimp only
  rw [h0]
  split
  · rfl
  · split <;> rfl

theorem repeating_stopped {σ : Type} {step : σ → Grammar π (Next σ)} {g g' : σ} {s s' : State π}
    (h : step g s = (.stop g', s')) : repeating step g s = (g', s') := by
  rw [repeating_stop (congrArg Prod.fst h), h]

/-- Skipping goes on behind `a` as if it started there, inside `n` brackets instead of `m`. -/
def SkipsOver (F : Frame π) (opening closing : Char) (m n : Nat) (a : List Char) : Prop :=
  ∀ p s v, s.At F p [] → F.text.drop p.length = a ++ v →
    ∃ s', s'.At F (a.reverse ++ p) [] ∧ s'.problems = s.problems ∧
      repeating (skipCharacter opening closing) m s = repeating (skipCharacter opening closing) n s'

namespace SkipsOver

theorem nil (n : Nat) : SkipsOver F opening closing n n [] :=
  fun _ s _ hs _ => ⟨s, hs, rfl, rfl⟩

theorem append {m n k : Nat} (h : SkipsOver F opening closing m n a)
    (h' : SkipsOver F opening closing n k b) : SkipsOver F opening closing m k (a ++ b) := by
  intro p s v hs htext
  obtain ⟨s₁, hs₁, hproblems₁, hrest₁⟩ := h p s (b ++ v) hs (by simpa using htext)
  have htext₁ : F.text.drop (a.reverse ++ p).length = b ++ v := by
    have hdrop := congrArg (List.drop a.length) htext
    simpa [Nat.add_comm] using hdrop
  obtain ⟨s₂, hs₂, hproblems₂, hrest₂⟩ := h' _ s₁ v hs₁ htext₁
  exact ⟨s₂, by simpa using hs₂, hproblems₂.trans hproblems₁, hrest₁.trans hrest₂⟩

theorem character {m n : Nat} {c : Char} (hm : 0 < m)
    (h : skipped opening closing m c = .again n) : SkipsOver F opening closing m n [c] := by
  intro p s v hs htext
  have hunread : s.reader.unread = c :: v := by
    rw [hs.reader.unread_eq]
    exact htext
  obtain ⟨r, hread, hr, -⟩ := hs.reader.read_cons hunread
  have hstep := skipCharacter_eq opening closing hm hread
  have hs' := hs.setReader hr
  refine ⟨_, hs', rfl, ?_⟩
  have hlt : (skipCharacter opening closing m s).2.reader.left < s.reader.left := by
    rw [hstep]
    exact hs.left_lt hs' (Nat.lt_succ_self _)
  have hagain : (skipCharacter opening closing m s).1 = .again n := by
    rw [hstep]
    exact h
  rw [repeating_again hagain hlt, hstep]

/-- A bracket of the kind that is skipped opens one level more. -/
theorem opened {n : Nat} (hn : 0 < n) :
    SkipsOver F opening closing n (n + 1) [opening] :=
  character hn (by rw [skipped, if_pos rfl])

theorem closed (hkind : Brackets opening closing) {n : Nat} (hn : 0 < n) :
    SkipsOver F opening closing (n + 1) n [closing] := by
  refine character (Nat.succ_pos n) ?_
  cases hkind <;> simp [skipped, Nat.ne_of_gt hn]

/-- A character of neither kind does not matter. -/
theorem other {c : Char} (hopening : c ≠ opening) (hclosing : c ≠ closing) {n : Nat} (hn : 0 < n) :
    SkipsOver F opening closing n n [c] :=
  character hn (by rw [skipped, if_neg hopening, if_neg hclosing])

/-- **Balanced text** is skipped over. -/
theorem balanced (hkind : Brackets opening closing) (ha : Balanced a) {n : Nat} (hn : 0 < n) :
    SkipsOver F opening closing n n a := by
  induction ha generalizing n with
  | nil => exact nil n
  | @plain c cs hc _ ih =>
    have hopening : c ≠ opening := fun h => by rw [h, hkind.isBracket.1] at hc; cases hc
    have hclosing : c ≠ closing := fun h => by rw [h, hkind.isBracket.2] at hc; cases hc
    exact (other hopening hclosing hn).append (ih hn)
  | @enclosed o c cs ds hkind' _ _ ih ih' =>
    have hsplit : o :: (cs ++ c :: ds) = [o] ++ (cs ++ ([c] ++ ds)) := rfl
    rw [hsplit]
    by_cases hsame : o = opening
    · obtain rfl := hsame
      obtain rfl : c = closing := by cases hkind <;> cases hkind' <;> rfl
      exact (opened hn).append ((ih (Nat.succ_pos n)).append ((closed hkind hn).append (ih' hn)))
    · have hne : o ≠ closing ∧ c ≠ opening ∧ c ≠ closing := by
        cases hkind <;> cases hkind' <;> simp_all
      exact (other hsame hne.1 hn).append
        ((ih hn).append ((other hne.2.1 hne.2.2 hn).append (ih' hn)))

end SkipsOver

variable (opening closing) in
/-- Skipping starts by noticing that the container is nested too deep, and ends by noticing that it
is open if a bracket is. -/
theorem skipContainer_notices_first (unterminated : Cause) (start : π) {p : List Char} {s : State π}
    (hs : s.At F p []) :
    ∃ s₁, s₁.At F p [] ∧
      s₁.problems = ⟨.nestingTooDeep, .place start, F.mark p.length⟩ :: s.problems ∧
      ∀ n s₂, repeating (skipCharacter opening closing) 1 s₁ = (n, s₂) →
        (skipContainer start opening closing unterminated s).2 =
          (whenever (n != 0) (reportToReach unterminated start) s₂).2 := by
  refine ⟨(reportToHere .nestingTooDeep start (noteSkip start s).2).2,
    ⟨hs.reader, hs.depth, hs.limit, hs.inGroup⟩, ?_, fun n s₂ hskip => ?_⟩
  · rw [← hs.reader.mark]
    rfl
  · rw [skipContainer, bind_apply, bind_apply, bind_apply, hskip]

/-- **Skipping**: a container with balanced text between its brackets is skipped, and nothing is
noticed but that it is nested too deep. -/
theorem skipContainer_balanced (hkind : Brackets opening closing) (ha : Balanced a)
    (unterminated : Cause) (start : π) {p v : List Char} {s : State π}
    (hs : s.At F (opening :: p) [])
    (htext : F.text.drop (opening :: p).length = a ++ closing :: v) :
    let s' := (skipContainer start opening closing unterminated s).2
    s'.At F (closing :: (a.reverse ++ opening :: p)) [] ∧
      s'.problems =
        ⟨.nestingTooDeep, .place start, F.mark (opening :: p).length⟩ :: s.problems := by
  obtain ⟨s₁, hs₁, hproblems₁, hcontainer⟩ :=
    skipContainer_notices_first opening closing unterminated start hs
  obtain ⟨s₂, hs₂, hproblems₂, hrest⟩ :=
    SkipsOver.balanced hkind ha Nat.one_pos _ s₁ (closing :: v) hs₁ htext
  have hunread : s₂.reader.unread = closing :: v := by
    have hdrop := congrArg (List.drop a.length) htext
    rw [hs₂.reader.unread_eq]
    simpa [Nat.add_comm, Nat.add_left_comm] using hdrop
  obtain ⟨r, hread, hr, -⟩ := hs₂.reader.read_cons hunread
  have hstep := skipCharacter_eq opening closing Nat.one_pos hread
  have hstop : skipped opening closing 1 closing = .stop 0 := by
    cases hkind <;> rfl
  rw [hstop] at hstep
  have hend : (skipContainer start opening closing unterminated s).2 = { s₂ with reader := r } :=
    hcontainer 0 _ (hrest.trans (repeating_stopped hstep))
  rw [hend]
  exact ⟨hs₂.setReader hr, hproblems₂.trans hproblems₁⟩

/-- A container that starts behind `p` has been skipped: `q` has been consumed, and it is reported
that the container is nested too deep. -/
def Skipped (F : Frame π) (p q : List Char) (s s' : State π) : Prop :=
  s'.At F q [] ∧
    s'.problems = ⟨.nestingTooDeep, .place (F.mark p.length), F.mark (p.length + 1)⟩ :: s.problems

theorem atLimit_apply {p l : List Char} {s : State π} (hs : s.At F p l)
    (hdeep : F.limit ≤ F.depth) : atLimit s = (true, s) := by
  rw [atLimit, asking_apply, hs.limit, hs.depth, decide_eq_true hdeep]

theorem placeOf_apply {p : List Char} {s : State π} {c : Char} (hc : c ≠ '\n')
    (hs : s.At F (c :: p) []) : placeOf c s = (F.mark p.length, s) := by
  have hknown : F.text[p.length]? = some c := Reader.At.known (b := []) hs.reader
  have hhere : here s = (F.mark (c :: p).length, s) := by
    rw [here, asking_apply, hs.reader.mark]
  rw [placeOf, bind_apply, hhere, before_apply hc, hs.reader.meter, List.length_cons,
    Tape.mark_before hknown hc]

variable [DecidableEq π] (value : Grammar π (Option (Value (Span π))))

/-- A sequence that is nested too deep is empty and goes to where skipping stops. -/
theorem sequence_deep (hdeep : F.limit ≤ F.depth) {p : List Char} {s : State π}
    (hs : s.At F ('[' :: p) []) :
    let s' := (skipContainer (F.mark p.length) '[' ']' .unterminatedArray s).2
    sequence value s = (⟨⟨F.mark p.length, s'.reader.place⟩, []⟩, s') := by
  rw [sequence, bind_apply, placeOf_apply (by decide) hs, bind_apply, atLimit_apply hs hdeep]
  rfl

/-- A map that is nested too deep is empty and goes to where skipping stops. -/
theorem map_deep (hgroup : F.inGroup = false) (hdeep : F.limit ≤ F.depth) {p : List Char}
    {s : State π} (hs : s.At F ('{' :: p) []) :
    let s' := (skipContainer (F.mark p.length) '{' '}' .unterminatedMap s).2
    map value s = (⟨⟨F.mark p.length, s'.reader.place⟩, []⟩, s') := by
  have hout : outsideGroup s = ((), s) := by
    rw [outsideGroup, bind_apply, inGroup, asking_apply, hs.inGroup, hgroup]
    rfl
  rw [map, bind_apply, hout, bind_apply, placeOf_apply (by decide) hs, bind_apply,
    atLimit_apply hs hdeep]
  rfl

theorem sequence_skipped (hdeep : F.limit ≤ F.depth) (ha : Balanced a) {p v : List Char}
    {s : State π} (hs : s.At F ('[' :: p) [])
    (htext : F.text.drop ('[' :: p).length = a ++ ']' :: v) :
    let q := ']' :: (a.reverse ++ '[' :: p)
    (sequence value s).1 = ⟨F.cover p.length q.length, []⟩ ∧
      Skipped F p q s (sequence value s).2 := by
  intro q
  obtain ⟨hat, hproblems⟩ :=
    skipContainer_balanced .squares ha .unterminatedArray (F.mark p.length) hs htext
  rw [sequence_deep value hdeep hs]
  refine ⟨?_, hat, hproblems⟩
  exact congrArg (fun stop => Sequence.mk (Span.mk (F.mark p.length) stop) []) hat.reader.mark

theorem map_skipped (hgroup : F.inGroup = false) (hdeep : F.limit ≤ F.depth) (ha : Balanced a)
    {p v : List Char} {s : State π} (hs : s.At F ('{' :: p) [])
    (htext : F.text.drop ('{' :: p).length = a ++ '}' :: v) :
    let q := '}' :: (a.reverse ++ '{' :: p)
    (map value s).1 = ⟨F.cover p.length q.length, []⟩ ∧ Skipped F p q s (map value s).2 := by
  intro q
  obtain ⟨hat, hproblems⟩ :=
    skipContainer_balanced .braces ha .unterminatedMap (F.mark p.length) hs htext
  rw [map_deep value hgroup hdeep hs]
  refine ⟨?_, hat, hproblems⟩
  exact congrArg (fun stop => Map.mk (Span.mk (F.mark p.length) stop) []) hat.reader.mark

end Grammar

end Diagram
