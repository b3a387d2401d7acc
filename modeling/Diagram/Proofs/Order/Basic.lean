import Diagram.Proofs.Diagnostics.Text

/-!
In which order problems are listed. They are noticed one after the other while reading goes on, and
most of them start where reading has come to. Some are noticed only when a construct is given up,
and start where it does: they may be listed behind problems that start inside of the construct.

Reading is followed in character indexes. `Listing J P g K` says that from states with `P` whose
problems have `J`, `g` leads to results, indexes and problems with `K`. There is one rule for each
step of the grammar; what a step does to the reader is taken from the rule that `Ensures` has for
it.
-/
namespace Diagram

/-! ## What may be listed behind what -/

/-- A problem with the code `outer` may be listed behind one with the code `inner` that starts
later: it is noticed when a construct is given up. What is unexpected in an edge index is noticed in
front of the problems with the place where it was looked for. -/
def Code.closesOver (outer inner : Code) : Bool :=
  match outer with
  | .unterminatedMap | .unterminatedArray | .unterminatedDoubleQuoted | .valueWithoutKey
  | .missingTarget | .unterminatedEdge | .invalidEdgeEscape | .unterminatedEdgeGroup
  | .unterminatedSubstitution => true
  | .unexpectedText | .unterminatedEdgeIndex => inner == .invalidEdgeIndex
  | _ => false

namespace Problem

/-- The index that a problem starts at. -/
def low (x : Problem Nat) : Nat := x.start.resolve .index

/-- The index that a problem is known not to start behind. -/
def high (x : Problem Nat) : Nat :=
  match x.start with
  | .place i | .colonBefore i => i

/-- `y` may be listed behind `x`: it starts no earlier, or it closes over `x`. -/
def Follows (x y : Problem Nat) : Prop :=
  x.high ≤ y.low ∨
    y.cause.code.closesOver x.cause.code = true ∧
      (x.high ≤ y.stop ∨ y.cause.code = .unterminatedEdgeIndex)

end Problem

/-- The problems, latest first, are listed in order, and none starts behind the index `m` unless it
starts in front of the index `n`. -/
structure Listed (m n : Nat) (problems : List (Problem Nat)) : Prop where
  ordered : problems.Pairwise fun y x => x.Follows y
  bounded : ∀ x ∈ problems, x.high ≤ m ∨ x.high < n

namespace Listed

variable {m n m' n' : Nat} {problems : List (Problem Nat)} {cause : Cause} {i stop : Nat}

theorem mono (h : Listed m n problems) (hm : m ≤ m') (hn : n ≤ n') : Listed m' n' problems where
  ordered := h.ordered
  bounded x hx := (h.bounded x hx).imp (fun hxm => by omega) fun hxn => by omega

/-- Behind a visible character, nothing starts later than there. -/
theorem upto (h : Listed m n problems) (hmn : m ≤ n) : Listed n n problems :=
  h.mono hmn (Nat.le_refl n)

/-- A problem that starts where reading has come to. -/
theorem notice (h : Listed m n problems) (hm : m ≤ i) (hn : n ≤ i + 1) (hi : i ≤ m' ∨ i < n') :
    Listed m' n' (⟨cause, .place i, stop⟩ :: problems) where
  ordered := by
    refine List.pairwise_cons.mpr ⟨fun x hx => .inl ?_, h.ordered⟩
    show x.high ≤ i
    rcases h.bounded x hx with hxm | hxn <;> omega
  bounded := by
    intro x hx
    obtain rfl | hx := List.mem_cons.mp hx
    · exact hi
    · rcases h.bounded x hx with hxm | hxn <;> omega

/-- A problem that closes over all that have been noticed. -/
theorem close (h : Listed m n problems) (hcode : ∀ inner, cause.code.closesOver inner = true)
    (hm : m ≤ stop) (hn : n ≤ stop + 1) (hi : i ≤ m ∨ i < n) :
    Listed m n (⟨cause, .place i, stop⟩ :: problems) where
  ordered := by
    refine List.pairwise_cons.mpr ⟨fun x hx => .inr ⟨hcode _, .inl ?_⟩, h.ordered⟩
    show x.high ≤ stop
    rcases h.bounded x hx with hxm | hxn <;> omega
  bounded := by
    intro x hx
    obtain rfl | hx := List.mem_cons.mp hx
    · exact hi
    · exact h.bounded x hx

end Listed

/-! ## What is noticed ahead -/

/-- The next visible character of the text at the index `i` stands at the index `j`. -/
structure NextAt (text : List Char) (i j : Nat) : Prop where
  le : i ≤ j
  visible : ∃ c, text[j]? = some c ∧ isBlank c = false
  blank : ∀ k c, i ≤ k → k < j → text[k]? = some c → isBlank c = true

namespace NextAt

variable {text : List Char} {i j k : Nat} {c : Char}

theorem behind (h : NextAt text i j) (hk : i ≤ k) (hkj : k ≤ j) : NextAt text k j :=
  ⟨hkj, h.visible, fun l c hl => h.blank l c (by omega)⟩

/-- No visible character stands in front of the next one. -/
theorem le_of_visible (h : NextAt text i j) (hk : i ≤ k) (hc : text[k]? = some c)
    (hvisible : isBlank c = false) : j ≤ k := by
  refine Nat.le_of_not_lt fun hlt => ?_
  have hblank := h.blank k c hk hlt hc
  rw [hvisible] at hblank
  cases hblank

theorem lt_length (h : NextAt text i j) : j < text.length := by
  obtain ⟨c, hc, -⟩ := h.visible
  exact (List.getElem?_eq_some_iff.mp hc).1

end NextAt

/-- A visible character is the next one of its line. -/
theorem Frame.OnLine.of_visible {π : Type} {F : Frame π} {i : Nat} {c : Char}
    (hc : F.text[i]? = some c) (hvisible : isBlank c = false) : F.OnLine i c := by
  obtain ⟨hi, rfl⟩ := List.getElem?_eq_some_iff.mp hc
  exact ⟨[], F.text.drop (i + 1), List.drop_eq_getElem_cons hi, by simp, by simp, hvisible⟩

/-- The problems, latest first, are listed in order, and none starts behind the index `i` but what
is unexpected in an edge index. That starts in front of the index `n`, or has been looked at from
there. -/
structure Foreseen (text : List Char) (i n : Nat) (problems : List (Problem Nat)) : Prop where
  ordered : problems.Pairwise fun y x => x.Follows y
  bounded : ∀ x ∈ problems, x.high ≤ i ∨
    x.cause.code = .invalidEdgeIndex ∧ (x.high < n ∨ NextAt text n x.high)

/-- What does not start behind an index is not noticed ahead of it. -/
theorem Listed.foreseen {text : List Char} {m n i k : Nat} {problems : List (Problem Nat)}
    (h : Listed m n problems) (hm : m ≤ i) (hn : n ≤ i + 1) : Foreseen text i k problems where
  ordered := h.ordered
  bounded x hx := .inl (by rcases h.bounded x hx with hxm | hxn <;> omega)

theorem Listed.settled {text : List Char} {n k : Nat} {problems : List (Problem Nat)}
    (h : Listed n n problems) (hn : n ≤ k) : Foreseen text k k problems :=
  h.foreseen hn (Nat.le_succ_of_le hn)

namespace Foreseen

variable {text : List Char} {i n k stop : Nat} {problems : List (Problem Nat)} {cause : Cause}
  {c : Char}

/-- What has been looked at is the next visible character as long as it is not passed. -/
theorem mono {j k : Nat} (h : Foreseen text i n problems) (hi : i ≤ j) (hn : n ≤ k) :
    Foreseen text j k problems where
  ordered := h.ordered
  bounded := by
    intro x hx
    rcases h.bounded x hx with hxi | ⟨hcode, hxn | hnext⟩
    · exact .inl (by omega)
    · exact .inr ⟨hcode, .inl (by omega)⟩
    · rcases Nat.lt_or_ge x.high k with hlt | hge
      · exact .inr ⟨hcode, .inl hlt⟩
      · exact .inr ⟨hcode, .inr (hnext.behind hn hge)⟩

/-- What has been looked at is passed with the next visible character. -/
theorem visible (h : Foreseen text i n problems) (hi : i ≤ k) (hn : n ≤ k)
    (hc : text[k]? = some c) (hvisible : isBlank c = false) : Listed k k problems where
  ordered := h.ordered
  bounded := by
    intro x hx
    rcases h.bounded x hx with hxi | ⟨-, hxn | hnext⟩
    · exact .inl (by omega)
    · exact .inl (by omega)
    · exact .inl (hnext.le_of_visible hn hc hvisible)

/-- Nothing has been looked at behind the text. -/
theorem ended (h : Foreseen text i n problems) (hi : i ≤ text.length) (hn : n ≤ text.length) :
    Listed text.length text.length problems where
  ordered := h.ordered
  bounded := by
    intro x hx
    rcases h.bounded x hx with hxi | ⟨-, hxn | hnext⟩
    · exact .inl (by omega)
    · exact .inl (by omega)
    · exact .inl (Nat.le_of_lt hnext.lt_length)

/-- What is unexpected in an edge index is noticed where it is looked at. -/
theorem notice {n' : Nat} (h : Foreseen text i n problems) (hall : Listed k k problems)
    (hcause : cause.code = .invalidEdgeIndex) (hn : n ≤ n')
    (hnext : k < n' ∨ NextAt text n' k) :
    Foreseen text i n' (⟨cause, .place k, stop⟩ :: problems) where
  ordered := by
    refine List.pairwise_cons.mpr ⟨fun x hx => .inl ?_, h.ordered⟩
    show x.high ≤ k
    rcases hall.bounded x hx with hxk | hxk <;> omega
  bounded := by
    intro x hx
    obtain rfl | hx := List.mem_cons.mp hx
    · exact .inr ⟨hcause, hnext⟩
    · exact (h.mono (Nat.le_refl i) hn).bounded x hx

/-- A problem that closes over what is unexpected in an edge index. -/
theorem close (h : Foreseen text i n problems)
    (hcode : cause.code.closesOver .invalidEdgeIndex = true)
    (hstop : cause.code = .unterminatedEdgeIndex ∨ n ≤ stop ∧ ∀ j, NextAt text n j → j ≤ stop) :
    Foreseen text i n (⟨cause, .place i, stop⟩ :: problems) where
  ordered := by
    refine List.pairwise_cons.mpr ⟨fun x hx => ?_, h.ordered⟩
    rcases h.bounded x hx with hxi | ⟨hxcode, hahead⟩
    · exact .inl hxi
    · refine .inr ⟨hxcode ▸ hcode, ?_⟩
      rcases hstop with hindex | ⟨hn, hnext⟩
      · exact .inr hindex
      · exact .inl (hahead.elim (fun hxn => show x.high ≤ stop by omega) (hnext x.high))
  bounded := by
    intro x hx
    obtain rfl | hx := List.mem_cons.mp hx
    · exact .inl (Nat.le_refl i)
    · exact h.bounded x hx

end Foreseen

namespace Grammar

variable {α β σ : Type}

/-- From the state `s`, if its problems have `J`, `g` leads to a result, an index and problems
with `K`. -/
def ListingFrom (J : List (Problem Nat) → Prop) (g : Grammar Nat α)
    (K : α → Nat → List (Problem Nat) → Prop) (s : State Nat) : Prop :=
  J s.problems → K (g s).1 (g s).2.reader.past.length (g s).2.problems

/-- From states with `P` whose problems have `J`, `g` leads to results, indexes and problems
with `K`. -/
def Listing (J : List (Problem Nat) → Prop) (P : State Nat → Prop) (g : Grammar Nat α)
    (K : α → Nat → List (Problem Nat) → Prop) : Prop :=
  ∀ s, P s → ListingFrom J g K s

namespace Listing

variable {F : Frame Nat} {p l : List Char} {P : State Nat → Prop}
  {J J' : List (Problem Nat) → Prop} {K : β → Nat → List (Problem Nat) → Prop}

theorem pure {b : β} (h : ∀ problems, J problems → K b p.length problems) :
    Listing J (State.At F p l) (Pure.pure b) K := by
  intro s hs hJ
  rw [← hs.reader.past] at h
  exact h _ hJ

/-- Where more is known of the problems in front. -/
theorem given {g : Grammar Nat β} (h : Listing J P g K)
    (hJ : ∀ problems, J' problems → J problems) : Listing J' P g K :=
  fun s hs hs' => h s hs (hJ _ hs')

/-- Where less is asked of the problems behind. -/
theorem weaken {g : Grammar Nat β} {K' : β → Nat → List (Problem Nat) → Prop}
    (h : Listing J P g K') (hK : ∀ b n problems, K' b n problems → K b n problems) :
    Listing J P g K :=
  fun s hs hs' => hK _ _ _ (h s hs hs')

theorem ite {c : Prop} [Decidable c] {g g' : Grammar Nat β} (h : c → Listing J P g K)
    (h' : ¬c → Listing J P g' K) : Listing J P (if c then g else g') K := by
  split
  · exact h ‹c›
  · exact h' ‹¬c›

/-- A result that is given where the problems are as listed as they were. -/
theorem done {b : β} {m n : Nat} (hn : n ≤ p.length) :
    Listing (Listed m n) (State.At F p l) (Pure.pure b) fun _ => Listed m :=
  .pure fun _ h => h.mono (Nat.le_refl m) hn

/-- A part that notices nothing. -/
theorem still {g : Grammar Nat β} (hg : Quiet g) : Listing J P g fun _ _ => J := by
  intro s _ hJ
  rwa [← hg s] at hJ

/-- A part that notices nothing leaves the problems as listed as they were. -/
theorem quiet {g : Grammar Nat β} {m n k : Nat} {R : β → Nat → Prop} (hg : Quiet g)
    (hreads : Ensures P g (Onward F k R)) (hn : n ≤ k) :
    Listing (Listed m n) P g fun _ => Listed m := by
  intro s hs hJ
  obtain ⟨q, hq, hs', -⟩ := hreads s hs
  rw [← hg s] at hJ
  rw [hs'.reader.past]
  exact hJ.mono (Nat.le_refl m) (by omega)

/-- A part of the grammar that comes last. -/
theorem last {g : Grammar Nat β} (h : Listing J P (g >>= Pure.pure) K) : Listing J P g K := h

/-- A step that notices nothing. -/
theorem step {g : Grammar Nat α} {f : α → Grammar Nat β} (hg : Quiet g)
    (h : Ensures P (g >>= Pure.pure) fun a => ListingFrom J (f a) K) : Listing J P (g >>= f) K := by
  intro s hs hJ
  rw [← hg s] at hJ
  exact h s hs hJ

theorem call {g : Grammar Nat α} {f : α → Grammar Nat β} {m : Nat} {R : α → Nat → Prop}
    {K' : α → Nat → List (Problem Nat) → Prop} (hg : Listing J P g K')
    (hreads : Ensures P g (Onward F m R))
    (hf : ∀ a q, m ≤ q.length → R a q.length → Listing (K' a q.length) (State.At F q []) (f a) K) :
    Listing J P (g >>= f) K := by
  intro s hs hJ
  obtain ⟨q, hq, hs', hR⟩ := hreads s hs
  have hheld := hg s hs hJ
  rw [hs'.reader.past] at hheld
  exact hf _ q hq hR _ hs' hheld

/-- A part that stays where it is, and that something follows. -/
theorem next {g : Grammar Nat Unit} {f : Unit → Grammar Nat β}
    (hg : Listing J (State.At F p l) g fun _ _ => J')
    (hstays : Ensures (State.At F p l) g fun _ => State.At F p l)
    (hf : Listing J' (State.At F p l) (f ()) K) : Listing J (State.At F p l) (g >>= f) K :=
  fun s hs hJ => hf _ (hstays s hs) (hg s hs hJ)

/-- A part whose result is passed on in another form. -/
theorem mapped {g : Grammar Nat α} {k : α → β} (hg : Listing J P g fun a => K (k a)) :
    Listing J P (g >>= fun a => Pure.pure (k a)) K := hg

/-- No more than the text is consumed and looked at. -/
theorem within {g : Grammar Nat β}
    (h : p.length + l.length ≤ F.text.length → Listing J (State.At F p l) g K) :
    Listing J (State.At F p l) g K :=
  fun s hs => h hs.reader.length_le s hs

/-- What has been looked at first is the next character of the text. -/
theorem known {c : Char} {g : Grammar Nat β}
    (h : F.text[p.length]? = some c → Listing J (State.At F p (l ++ [c])) g K) :
    Listing J (State.At F p (l ++ [c])) g K :=
  fun s hs => h (by simp [← hs.reader.text]) s hs

/-- The character consumed last was the next one of the text. -/
theorem consumed {c : Char} {g : Grammar Nat β}
    (h : F.text[p.length]? = some c → Listing J (State.At F (c :: p) l) g K) :
    Listing J (State.At F (c :: p) l) g K :=
  fun s hs => h (Reader.At.known (b := []) hs.reader) s hs

/-- Behind a visible character, nothing has been noticed ahead. -/
theorem passing {c : Char} {i n : Nat} {g : Grammar Nat β} (hi : i ≤ p.length) (hn : n ≤ p.length)
    (hc : isBlank c = false) (h : Listing (Listed p.length p.length) (State.At F (c :: p) l) g K) :
    Listing (Foreseen F.text i n) (State.At F (c :: p) l) g K :=
  .consumed fun hknown => h.given fun _ hJ => hJ.visible hi hn hknown hc

/-- What is found behind blanks that have been looked at is the next visible character. -/
theorem sighted {b : List Char} {c : Char} {g : Grammar Nat β} (hb : ∀ x ∈ b, isBlank x = true)
    (hc : isBlank c = false)
    (h : NextAt F.text p.length (p.length + b.length) → Listing J (State.At F p (c :: b)) g K) :
    Listing J (State.At F p (c :: b)) g K := by
  intro s hs
  refine h ⟨Nat.le_add_right _ _, ⟨c, ?_, hc⟩, fun k x hk hkb hx => ?_⟩ s hs
  · simp [← hs.reader.text]
  · -- in front of it stand the blanks that have been looked at
    rw [← hs.reader.text, List.reverse_cons, List.append_assoc, List.append_assoc,
      List.getElem?_append_right (by simpa using hk),
      List.getElem?_append_left (by simp; omega)] at hx
    exact hb x (List.mem_reverse.mp (List.mem_of_getElem? hx))

/-! ### Steps of the reader -/

section

variable {f : Option Char → Grammar Nat β}

theorem peek (hnone : Listing J (State.At F p []) (f none) K)
    (hsome : ∀ c, Listing J (State.At F p (c :: l)) (f (some c)) K) :
    Listing J (State.At F p l) (Grammar.peek >>= f) K :=
  .step (.reading _) (.peek hnone hsome)

theorem read (hnone : Listing J (State.At F p []) (f none) K)
    (hsome : ∀ c, Listing J (State.At F (c :: p) []) (f (some c)) K) :
    Listing J (State.At F p []) (Grammar.read >>= f) K :=
  .step (.reading _) (.read hnone hsome)

/-- A character that is known to come next is found there. -/
theorem peekKnown {c : Char} (hc : F.text[p.length]? = some c)
    (h : Listing J (State.At F p [c]) (f (some c)) K) :
    Listing J (State.At F p []) (Grammar.peek >>= f) K :=
  .step (.reading _) (.peekKnown hc h)

theorem peekOnLine (hnone : Listing J (State.At F p []) (f none) K)
    (hsome : ∀ b c, isBlank c = false → Listing J (State.At F p (c :: (b ++ l))) (f (some c)) K) :
    Listing J (State.At F p l) (Grammar.peekOnLine >>= f) K :=
  .step .peekOnLine (.peekOnLine hnone hsome)

/-- Looking along the line finds its next visible character, if it has one. -/
theorem peekLine (hnone : Listing J (State.At F p []) (f none) K)
    (hsome : ∀ b c, (∀ x ∈ b, isBlank x = true) → F.OnLine p.length c →
      Listing J (State.At F p (c :: b)) (f (some c)) K) :
    Listing J (State.At F p []) (Grammar.peekOnLine >>= f) K :=
  .step .peekOnLine (.peekLine (fun _ => hnone) hsome)

/-- The next visible character of the line is found. -/
theorem peekOnLineFound {c : Char} (hc : F.OnLine p.length c)
    (h : ∀ b, Listing J (State.At F p (c :: b)) (f (some c)) K) :
    Listing J (State.At F p []) (Grammar.peekOnLine >>= f) K :=
  .step .peekOnLine (.peekOnLineFound hc h)

theorem readVisible
    (hnone : p.length ≤ F.text.length → Listing J (State.At F F.text.reverse []) (f none) K)
    (hsome : ∀ b c, isBlank c = false → Listing J (State.At F (c :: (b ++ p)) []) (f (some c)) K) :
    Listing J (State.At F p []) (Grammar.readVisible >>= f) K :=
  .step (.reading _) (.readVisible hnone hsome)

end

theorem peekVisible {f : Option (Char × Nat) → Grammar Nat β}
    (hnone : Listing J (State.At F p []) (f none) K)
    (hsome : ∀ b c, isBlank c = false →
      Listing J (State.At F p (c :: (b ++ l))) (f (some (c, b.count '\n'))) K) :
    Listing J (State.At F p l) (Grammar.peekVisible >>= f) K :=
  .step (.reading _) (.peekVisible hnone hsome)

theorem acceptExactly {cs : List Char} {f : Bool → Grammar Nat β}
    (hyes : Listing J (State.At F (cs.reverse ++ p) []) (f true) K)
    (hno : Listing J (State.At F p []) (f false) K) :
    Listing J (State.At F p []) (Grammar.acceptExactly cs >>= f) K :=
  .step .acceptExactly (.acceptExactly hyes hno)

theorem accept {f : Unit → Grammar Nat β} (h : Listing J (State.At F (l ++ p) []) (f ()) K) :
    Listing J (State.At F p l) (Grammar.accept >>= f) K :=
  .step (.adjusting _) (.accept h)

theorem retreat {f : Unit → Grammar Nat β} (h : Listing J (State.At F p []) (f ()) K) :
    Listing J (State.At F p l) (Grammar.retreat >>= f) K :=
  .step (.adjusting _) (.retreat h)

theorem putBack {c : Char} {f : Unit → Grammar Nat β} (hc : c ≠ '\n')
    (h : Listing J (State.At F p []) (f ()) K) :
    Listing J (State.At F (c :: p) l) (Grammar.putBack c >>= f) K :=
  .step (.adjusting _) (.putBack hc h)

/-! ### Places and levels -/

theorem inGroup {f : Bool → Grammar Nat β} (h : Listing J (State.At F p l) (f F.inGroup) K) :
    Listing J (State.At F p l) (Grammar.inGroup >>= f) K :=
  .step (fun _ => rfl) (.inGroup h)

theorem atLimit {f : Bool → Grammar Nat β}
    (h : Listing J (State.At F p l) (f (decide (F.limit ≤ F.depth))) K) :
    Listing J (State.At F p l) (Grammar.atLimit >>= f) K :=
  .step (fun _ => rfl) (.atLimit h)

theorem setGroup {b : Bool} {f : Unit → Grammar Nat β}
    (h : Listing J (State.At (F.grouped b) p l) (f ()) K) :
    Listing J (State.At F p l) (Grammar.setGroup b >>= f) K :=
  .step (fun _ => rfl) (.setGroup h)

theorem outsideGroup {f : Unit → Grammar Nat β} (hgroup : F.inGroup = false)
    (h : Listing J (State.At F p l) (f ()) K) :
    Listing J (State.At F p l) (Grammar.outsideGroup >>= f) K :=
  .step .outsideGroup (.outsideGroup hgroup h)

theorem noteSkip {start : Nat} {f : Unit → Grammar Nat β}
    (h : Listing J (State.At F p l) (f ()) K) :
    Listing J (State.At F p l) (Grammar.noteSkip start >>= f) K :=
  .step (fun _ => rfl) (.noteSkip h)

theorem nested {g : Grammar Nat α} {f : α → Grammar Nat β} {R : α → Nat → Prop}
    {K' : α → Nat → List (Problem Nat) → Prop} (hg : Listing J (State.At F.deeper p []) g K')
    (hreads : Ensures (State.At F.deeper p []) g (Onward F.deeper p.length R))
    (hf : ∀ a q, p.length ≤ q.length → R a q.length →
      Listing (K' a q.length) (State.At F q []) (f a) K) :
    Listing J (State.At F p []) (Grammar.nested g >>= f) K := by
  have hback : Ensures (State.At F p []) (Grammar.nested g >>= Pure.pure) (Onward F p.length R) :=
    .nested hreads fun _ _ hq hR => .done hq hR
  have hlisting : Listing J (State.At F p []) (Grammar.nested g) K' := by
    intro s hs hJ
    have hdeeper : State.At F.deeper p [] { s with depth := s.depth + 1 } :=
      ⟨hs.reader, congrArg (· + 1) hs.depth, hs.limit, hs.inGroup⟩
    obtain ⟨q, -, hs', -⟩ := hreads _ hdeeper
    rw [nested_apply hs'.depth_ne_zero]
    exact hg _ hdeeper hJ
  exact .call hlisting hback hf

/-! ### Indexes

Where places are measured by indexes, the place of a character is its index. -/

section

variable (hF : F.meter = .index)

include hF

theorem mark_index {i : Nat} (hi : i ≤ F.text.length) : F.mark i = i := by
  rw [Tape.mark, hF, Meter.index_after, List.length_take]
  exact Nat.min_eq_left hi

theorem here {f : Nat → Grammar Nat β} (h : Listing J (State.At F p l) (f p.length) K) :
    Listing J (State.At F p l) (Grammar.here >>= f) K :=
  .within fun hlength => .step (fun _ => rfl) (.here (by rwa [mark_index hF (by omega)]))

theorem before {i : Nat} {c : Char} {f : Nat → Grammar Nat β} (hc : c ≠ '\n')
    (h : Listing J (State.At F p l) (f (i - 1)) K) :
    Listing J (State.At F p l) (Grammar.before i c >>= f) K := by
  refine .step .before (.before hc ?_)
  rw [hF]
  exact h

theorem beforeAll {i n : Nat} {cs : List Char} {f : Nat → Grammar Nat β}
    (hcs : ∀ c ∈ cs, c ≠ '\n') (hi : i = n + cs.length)
    (h : Listing J (State.At F p l) (f n) K) :
    Listing J (State.At F p l) (Grammar.beforeAll i cs >>= f) K := by
  induction cs generalizing i with
  | nil =>
    rw [hi]
    exact h
  | cons c cs ih =>
    rw [Grammar.beforeAll, bind_assoc]
    refine .before hF (hcs c (by simp)) (ih (fun x hx => hcs x (by simp [hx])) ?_)
    rw [hi, List.length_cons]
    omega

theorem placeOf {c : Char} {f : Nat → Grammar Nat β} (hc : c ≠ '\n')
    (h : Listing J (State.At F (c :: p) l) (f p.length) K) :
    Listing J (State.At F (c :: p) l) (Grammar.placeOf c >>= f) K := by
  rw [Grammar.placeOf, bind_assoc]
  exact .here hF (.before hF hc h)

/-- The character looked at last, of which the place in front and behind are asked for. -/
theorem lookedBehind {b : List Char} {c : Char} {f : Nat → Grammar Nat β}
    (h : Listing J (State.At F p (c :: b)) (f (p.length + b.length + 1)) K) :
    Listing J (State.At F p (c :: b)) (Grammar.lookedPlace >>= f) K := by
  refine .within fun hlength => .step (fun _ => rfl) (.lookedPlace ?_)
  rw [mark_index hF hlength]
  exact h

end

/-! ### Problems -/

theorem report {H : List (Problem Nat) → Prop} {cause : Cause} {i stop : Nat}
    {f : Unit → Grammar Nat β}
    (hJ : ∀ problems, J problems → H (⟨cause, .place i, stop⟩ :: problems))
    (h : Listing H (State.At F p l) (f ()) K) :
    Listing J (State.At F p l) (Grammar.report cause i stop >>= f) K :=
  fun _ hs hs' => h _ ⟨hs.reader, hs.depth, hs.limit, hs.inGroup⟩ (hJ _ hs')

theorem reportToHere (hF : F.meter = .index) {H : List (Problem Nat) → Prop} {cause : Cause}
    {i : Nat} {f : Unit → Grammar Nat β}
    (hJ : ∀ problems, J problems → H (⟨cause, .place i, p.length⟩ :: problems))
    (h : Listing H (State.At F p l) (f ()) K) :
    Listing J (State.At F p l) (Grammar.reportToHere cause i >>= f) K := by
  rw [Grammar.reportToHere, bind_assoc]
  exact .here hF (.report hJ h)

theorem reportToReach (hF : F.meter = .index) {H : List (Problem Nat) → Prop} {cause : Cause}
    {i : Nat} {f : Unit → Grammar Nat β}
    (hJ : ∀ problems stop, p.length ≤ stop → J problems →
      H (⟨cause, .place i, stop⟩ :: problems))
    (h : Listing H (State.At F p l) (f ()) K) :
    Listing J (State.At F p l) (Grammar.reportToReach cause i >>= f) K := by
  intro s hs hs'
  refine h _ ⟨hs.reader, hs.depth, hs.limit, hs.inGroup⟩ (hJ _ s.reader.reach ?_ hs')
  rw [hs.reader.reachMark, mark_index hF hs.reader.count_le, hs.reader.count_eq]
  omega

section

variable {m n i : Nat} {cause : Cause} {f : Unit → Grammar Nat β} (hF : F.meter = .index)
  (hcode : ∀ inner, cause.code.closesOver inner = true) (hm : m ≤ p.length)
  (hn : n ≤ p.length + 1) (hi : i ≤ m ∨ i < n)

include hF hcode hm hn hi

/-- What is given up where reading has come to closes over all that has been noticed. -/
theorem closeToHere (h : Listing (Listed m n) (State.At F p l) (f ()) K) :
    Listing (Listed m n) (State.At F p l) (Grammar.reportToHere cause i >>= f) K :=
  .reportToHere hF (fun _ hJ => hJ.close hcode hm hn hi) h

theorem closeToReach (h : Listing (Listed m n) (State.At F p l) (f ()) K) :
    Listing (Listed m n) (State.At F p l) (Grammar.reportToReach cause i >>= f) K :=
  .reportToReach hF (fun _ _ hstop hJ =>
    hJ.close hcode (Nat.le_trans hm hstop) (Nat.le_trans hn (Nat.succ_le_succ hstop)) hi) h

end

/-- A value that is missing is noticed where it should stand,
behind what is in front of the colon. -/
theorem reportMissingValue {m : Nat} (hm : m < p.length) {f : Unit → Grammar Nat β}
    (h : Listing (Listed p.length p.length) (State.At F p l) (f ()) K) :
    Listing (Listed m p.length) (State.At F p l)
      (Grammar.reportAtColon .missingValue p.length >>= f) K := by
  intro s hs hJ
  refine h _ ⟨hs.reader, hs.depth, hs.limit, hs.inGroup⟩ ⟨?_, fun x hx => ?_⟩
  · refine List.pairwise_cons.mpr ⟨fun x hx => .inl ?_, hJ.ordered⟩
    show x.high ≤ p.length - 1
    rcases hJ.bounded x hx with hxm | hxn <;> omega
  · obtain rfl | hx := List.mem_cons.mp hx
    · exact .inl (Nat.le_refl p.length)
    · exact (hJ.bounded x hx).imp_left fun hxm => Nat.le_trans hxm (Nat.le_of_lt hm)

theorem whenever {b : Bool} {g : Grammar Nat Unit} {K : Unit → Nat → List (Problem Nat) → Prop}
    (h : b = true → Listing J (State.At F p l) g K)
    (h' : b = false → ∀ problems, J problems → K () p.length problems) :
    Listing J (State.At F p l) (Grammar.whenever b g) K := by
  cases b with
  | false => exact .pure (h' rfl)
  | true => exact h rfl

/-! ### Repetition -/

/-- A step leads to an index and problems with `H` if it is repeated, and with `S` if it is not. -/
def Turns (H : Nat → List (Problem Nat) → Prop) (S : σ → Nat → List (Problem Nat) → Prop) :
    Next σ → Nat → List (Problem Nat) → Prop
  | .again _ => H
  | .stop g => S g

/-- What holds at every index that a step leads to holds where the repetition stops. -/
theorem repeating {step : σ → Grammar Nat (Next σ)} {I Q : σ → Nat → Prop}
    {H : Nat → List (Problem Nat) → Prop} {S : σ → Nat → List (Problem Nat) → Prop}
    (hreads : ∀ g p, I g p.length → Ensures (State.At F p []) (step g) (Steps F p.length I Q))
    (hstep : ∀ g q, p.length ≤ q.length → I g q.length →
      Listing (H q.length) (State.At F q []) (step g) (Turns H S))
    {g : σ} (hg : I g p.length) (hJ : ∀ problems, J problems → H p.length problems) :
    Listing J (State.At F p []) (Grammar.repeating step g) S := by
  intro s hs hs'
  -- the index is in the invariant, so that a step may be used only from where the repetition starts
  refine repeating_holds (I := fun g i => p.length ≤ i ∧ I g i)
    (J := fun _ s => H s.reader.past.length s.problems)
    (S := fun g' s' => S g' s'.reader.past.length s'.problems) (Steps.onward hreads)
    (fun g q ⟨hq, hI⟩ s ⟨hs, hH⟩ => ?_) ⟨Nat.le_refl _, hg⟩ s ⟨hs, ?_⟩
  · rw [hs.reader.past] at hH
    have hheld := hstep g q hq hI s hs hH
    cases hnext : (step g s).1 with
    | again g => rwa [hnext] at hheld
    | stop g => rwa [hnext] at hheld
  · rw [hs.reader.past]
    exact hJ _ hs'

/-- What every step keeps, the whole repetition keeps. -/
theorem looping {step : σ → Grammar Nat (Next σ)} {I Q : σ → Nat → Prop}
    {H : Nat → List (Problem Nat) → Prop}
    (hreads : ∀ g p, I g p.length → Ensures (State.At F p []) (step g) (Steps F p.length I Q))
    (hstep : ∀ g q, p.length ≤ q.length → I g q.length →
      Listing (H q.length) (State.At F q []) (step g) fun _ => H)
    {g : σ} (hg : I g p.length) (hJ : ∀ problems, J problems → H p.length problems) :
    Listing J (State.At F p []) (Grammar.repeating step g) fun _ => H := by
  refine .repeating hreads (fun g q hq hI => ?_) hg hJ
  refine (hstep g q hq hI).weaken fun next _ _ h => ?_
  cases next with
  | again _ => exact h
  | stop _ => exact h

end Listing

end Grammar

end Diagram
