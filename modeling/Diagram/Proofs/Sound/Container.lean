import Diagram.Grammar.Container
import Diagram.Proofs.Sound.Edge
import Diagram.Proofs.Source

/-!
Keys, values and the containers that hold them keep the rules of the reader, and their nodes lie
where they were read: every part of a key inside the key, and the children of a container in the
order they are written.

What is said of containers and keys rests on what the grammar of the values inside them does;
`valueWithin_reads` closes the circle.
-/
namespace Diagram.Grammar

variable {π : Type} {F : Frame π} {n : Nat}

theorem scalarOf_within {ρ : Type} {cover : Nat → Nat → ρ} {t : Text ρ} {lo hi : Nat}
    (h : t.Within cover lo hi) : (scalarOf t).Within cover lo hi := by
  unfold scalarOf
  split
  · obtain ⟨i, j, hlo, hij, hhi, hrange, _⟩ := h
    have hcovers : Covers cover _ (fun _ _ => True) lo hi := ⟨i, j, hlo, hij, hhi, hrange, trivial⟩
    split
    · exact hcovers
    split
    · exact hcovers
    split
    · exact hcovers
    split
    · exact hcovers
    · exact ⟨i, j, hlo, hij, hhi, hrange, by assumption⟩
  · exact h

/-! ## Containers that are nested too deep -/

/-- No more brackets are closed than have been opened. -/
theorem skipCharacter_reads (opening closing : Char) {nesting : Nat} (p : List Char)
    (h : 0 < nesting) :
    Ensures (State.At F p []) (skipCharacter opening closing nesting)
      (Steps F p.length (fun nesting _ => 0 < nesting) fun _ _ => True) := by
  refine .read (Steps.stop (Nat.le_refl _) trivial) fun c =>
    .ite (fun _ => ?_) fun _ => .ite (fun _ => ?_) fun _ => ?_
  · exact Steps.again (by simp) (Nat.succ_pos nesting)
  · refine .whenever (fun h0 => absurd (of_decide_eq_true h0) (by omega)) ?_
    by_cases h1 : nesting - 1 = 0
    · rw [if_pos h1]
      exact Steps.stop (by simp) trivial
    · rw [if_neg h1]
      exact Steps.again (by simp) (by omega)
  · exact Steps.again (by simp) h

theorem skipContainer_reads (start : π) (opening closing : Char) (unterminated : Cause)
    (p : List Char) :
    Ensures (State.At F p []) (skipContainer start opening closing unterminated)
      (Onward F p.length fun _ _ => True) :=
  .noteSkip (.reportToHere (.call (repeating_ensures (I := fun nesting _ => 0 < nesting)
    (fun _ p h => skipCharacter_reads opening closing p h) Nat.one_pos) fun _ _ hq _ =>
      .ending (.whenever_stays .reportToReach_stays) hq trivial))

/-! ## What follows a node -/

/-- At the index `i` stands a visible character that does not end a node. -/
def StartsText (F : Frame π) (closing : Char) (i : Nat) : Prop :=
  ∃ c, F.text[i]? = some c ∧ isBlank c = false ∧ c ≠ ';' ∧ c ≠ closing ∧ c ≠ '#'

theorem trailingCharacter_reads (closing : Char) (u : Unit) (p : List Char) :
    Ensures (State.At F p []) (trailingCharacter closing u)
      (Steps F p.length (fun _ _ => True) fun _ j => ¬StartsText F closing j) := by
  by_cases hstarts : StartsText F closing p.length
  · obtain ⟨c, hc, hvisible, hsemicolon, hclosing, hhash⟩ := hstarts
    refine .peekOnLineKnown hc hvisible (.ite (fun _ => ?_) fun h => ?_)
    · exact .accept (Steps.again (by simp) trivial)
    · simp [hsemicolon, hclosing, hhash] at h
  · refine .peekOnLine (Steps.stop (Nat.le_refl _) hstarts) fun b c _ =>
      .ite (fun _ => ?_) fun _ => ?_
    · exact .accept (Steps.again
        (by simp only [List.length_cons, List.length_append]; omega) trivial)
    · exact .retreat (Steps.stop (Nat.le_refl _) hstarts)

/-- The text behind a node is read to its end. -/
theorem trailingText_reads [DecidableEq π] (typeName : Option String) (closing : Char)
    (fallback : Cause) (p : List Char) :
    Ensures (State.At F p []) (trailingText typeName closing fallback)
      (Onward F p.length fun _ j => ¬StartsText F closing j) :=
  .here (.call (repeating_ensures (fun u p _ => trailingCharacter_reads closing u p) trivial)
    fun _ _ hq h => .here (.ending (.whenever_stays .report_stays) hq h))

/-- Text that starts behind a node is read on. -/
theorem lt_of_not_startsText {closing c : Char} {i j : Nat} (hij : i ≤ j)
    (hc : F.text[i]? = some c) (hvisible : isBlank c = false) (hsemicolon : c ≠ ';')
    (hclosing : c ≠ closing) (hbeyond : i < j ∨ c ≠ '#') {k : Nat} (hjk : j ≤ k)
    (hstarts : ¬StartsText F closing k) : i < k := by
  rcases hbeyond with h | hhash
  · omega
  · rcases Nat.lt_or_ge i k with h | h
    · exact h
    · obtain rfl : i = k := by omega
      exact absurd ⟨c, hc, hvisible, hsemicolon, hclosing, hhash⟩ hstarts

/-! ## Keys -/

/-- What a key is read by: its parts stay where they are, and those that are read lie behind. -/
def ReadsParts (F : Frame π) (g : Key (Span π) → Grammar π (Key (Span π))) : Prop :=
  ∀ n key p, n ≤ p.length → key.PartsWithin F.cover n p.length →
    Ensures (State.At F p []) (g key) (Onward F p.length (Key.PartsWithin F.cover n))

section

variable {value : Grammar π (Option (Value (Span π)))}

theorem mapBehind_reads (hvalue : Reads F (Value.Within F.cover) value)
    {key : Key (Span π)} {scalar : Scalar (Span π)} {p : List Char} (hn : n ≤ p.length)
    (hkey : key.PartsWithin F.cover n p.length) (hscalar : scalar.Within F.cover n p.length) :
    Ensures (State.At F p []) (mapBehind value key scalar)
      (Onward F p.length (Key.PartsWithin F.cover n)) := by
  have hplain : Key.PartsWithin F.cover n { key with value := some (.scalar scalar) } p.length := by
    obtain ⟨hpath, hedges, hindex, hedgePath, hprimary, -⟩ := hkey
    exact ⟨hpath, hedges, hindex, hedgePath, hprimary, fun x hx => Option.some.inj hx ▸ hscalar⟩
  refine .peekOnLine (.done (Nat.le_refl _) hplain) fun b c _ => .ite ?_ fun _ => ?_
  · rintro rfl
    refine .accept (.putBack (by decide) (.call (hvalue _) fun v q hq hv => .done ?_ ?_))
    · simp at hq
      omega
    · simp at hq hv
      have hpq : p.length ≤ q.length := by omega
      obtain ⟨hpath, hedges, hindex, hedgePath, -, -⟩ := hkey.mono hpq
      refine ⟨hpath, hedges, hindex, hedgePath, ?_, ?_⟩
      · intro x hx
        exact Option.some.inj hx ▸ hscalar.mono (Nat.le_refl n) hpq
      · exact fun x hx => (hv x hx).mono (by omega) (Nat.le_refl _)
  · exact .retreat (.done (Nat.le_refl _) hplain)

theorem valueOfKey_reads (hvalue : Reads F (Value.Within F.cover) value) :
    ReadsParts F (valueOfKey value) := by
  intro n key p hn hkey
  refine .call (hvalue p) fun v q hq hv => ?_
  have hv' : ∀ x ∈ v, x.Within F.cover n q.length :=
    fun x hx => (hv x hx).mono hn (Nat.le_refl _)
  have hkey' := hkey.mono hq
  obtain ⟨hpath, hedges, hindex, hedgePath, hprimary, -⟩ := id hkey'
  match v with
  | none =>
    refine .here (.silent (fun _ => ⟨rfl, rfl, rfl, rfl⟩) fun _ => .done hq ?_)
    exact ⟨hpath, hedges, hindex, hedgePath, hprimary, by simp⟩
  | some (.scalar scalar) =>
    exact (mapBehind_reads hvalue (by omega) hkey' (hv' _ rfl)).tail hq fun _ _ _ h => h
  | some (.sequence s) =>
    exact .done hq ⟨hpath, hedges, hindex, hedgePath, hprimary, hv'⟩
  | some (.map m) =>
    exact .done hq ⟨hpath, hedges, hindex, hedgePath, hprimary, hv'⟩

theorem keyValue_reads (hvalue : Reads F (Value.Within F.cover) value) :
    ReadsParts F (keyValue value) := by
  intro n key p hn hkey
  have hdone : Ensures (State.At F p []) (pure key)
      (Onward F p.length (Key.PartsWithin F.cover n)) :=
    .done (Nat.le_refl _) hkey
  refine .peekOnLine hdone fun b c _ => .ite (fun _ => ?_) fun _ => .ite (fun _ => ?_) fun _ => ?_
  · exact .retreat (.ite (fun _ => valueOfKey_reads hvalue n key p hn hkey) fun _ => hdone)
  · refine .accept (.whenever (fun _ => .reportToHere_stays) ?_)
    exact (valueOfKey_reads hvalue n key _ (by simp; omega) (hkey.mono (by simp; omega))).tail
      (by simp; omega) fun _ _ _ h => h
  · exact .retreat hdone

end

/-! ### Edge groups -/

/-- A character that is read behind blanks. -/
theorem Ensures.acceptOverBlanks {β : Type} {c : Char} {p : List Char}
    {f : Behind → Grammar π β} {Q : β → State π → Prop}
    (hfound : ∀ b, LineBlanks b → Ensures (State.At F (c :: (b ++ p)) []) (f .found) Q)
    (hother : Ensures (State.At F p []) (f .other) Q)
    (hlineEnd : Ensures (State.At F p []) (f .lineEnd) Q) :
    Ensures (State.At F p []) (acceptBehind c >>= f) Q := by
  rw [Grammar.acceptBehind, bind_assoc]
  refine .peekOverLine hlineEnd fun b x hb _ => ?_
  by_cases hx : x = c
  · subst hx
    simpa using Ensures.accept (l := x :: b) (hfound b hb)
  · simpa [hx] using Ensures.retreat (l := x :: b) hother

theorem Ensures.acceptBehind {β : Type} {c : Char} {p : List Char}
    {f : Behind → Grammar π β} {Q : β → State π → Prop}
    (hfound : ∀ q, p.length ≤ q.length → Ensures (State.At F (c :: q) []) (f .found) Q)
    (hother : Ensures (State.At F p []) (f .other) Q)
    (hlineEnd : Ensures (State.At F p []) (f .lineEnd) Q) :
    Ensures (State.At F p []) (acceptBehind c >>= f) Q :=
  .acceptOverBlanks (fun b _ => hfound (b ++ p) (by simp)) hother hlineEnd

theorem groupPath_reads {key : Key (Span π)} {p : List Char} (hn : n ≤ p.length)
    (hkey : key.PartsWithin F.cover n p.length) :
    Ensures (State.At F p []) (groupPath key)
      (Onward F p.length fun r => r.1.PartsWithin F.cover n) := by
  refine .acceptBehind (fun q hq => ?_) ?_ ?_
  · refine .call (path_reads _) fun path q' hq' hpath => .done ?_ ?_
    · simp at hq'
      omega
    · simp at hq' hpath
      have hpq : p.length ≤ q'.length := by omega
      obtain ⟨hkeyPath, hedges, hindex, -, hprimary, hvalue⟩ := hkey.mono hpq
      refine ⟨hkeyPath, hedges, hindex, ?_, hprimary, hvalue⟩
      exact fun x hx => (hpath x hx).mono (by omega) (Nat.le_refl _)
  · exact .done (Nat.le_refl _) hkey
  · exact .done (Nat.le_refl _) hkey

theorem groupIndex_reads {key : Key (Span π)} {p : List Char} (hn : n ≤ p.length)
    (hkey : key.PartsWithin F.cover n p.length) :
    Ensures (State.At F p []) (groupIndex key)
      (Onward F p.length fun r => r.1.PartsWithin F.cover n) := by
  refine .acceptBehind (fun q hq => ?_) ?_ ?_
  · refine .call (edgeIndex_reads q) fun index q' hq' hindex => ?_
    have hpq : p.length ≤ q'.length := by omega
    have hkey' : Key.PartsWithin F.cover n { key with edgeIndex := index } q'.length := by
      obtain ⟨hpath, hedges, -, hedgePath, hprimary, hvalue⟩ := hkey.mono hpq
      refine ⟨hpath, hedges, ?_, hedgePath, hprimary, hvalue⟩
      exact fun x hx => Covers.mono (hindex x hx) (by omega) (Nat.le_refl _)
    exact (groupPath_reads (by omega) hkey').tail hpq fun _ _ _ h => h
  · exact groupPath_reads hn hkey
  · exact .done (Nat.le_refl _) hkey

theorem groupParts_reads {key : Key (Span π)} {p : List Char} (hn : n ≤ p.length)
    (hkey : key.PartsWithin F.cover n p.length) :
    Ensures (State.At F p []) (groupParts key)
      (Onward F p.length fun r => r.1.PartsWithin F.cover n) := by
  refine .call (path_reads p) fun source q hq hsource => ?_
  have hsource' : ∀ x ∈ source, x.Within F.cover n q.length :=
    fun x hx => (hsource x hx).mono hn (Nat.le_refl _)
  refine .call (edges_reads (by omega) hsource') fun edges q' hq' hedges => ?_
  have hpq : p.length ≤ q'.length := by omega
  have hkey' : Key.PartsWithin F.cover n { key with edges } q'.length := by
    obtain ⟨hpath, -, hindex, hedgePath, hprimary, hvalue⟩ := hkey.mono hpq
    exact ⟨hpath, hedges, hindex, hedgePath, hprimary, hvalue⟩
  refine .acceptBehind (fun r hr => ?_) ?_ ?_
  · have hclosed := hkey'.mono (Nat.le_succ_of_le hr)
    exact (groupIndex_reads (p := ')' :: r) (by simp; omega) hclosed).tail (by simp; omega)
      fun _ _ _ h => h
  · exact .reportToHere (.done hpq hkey')
  · exact .reportToHere (.done hpq hkey')

/-- Behind the parentheses of an edge group, at most a path is added to a key. -/
theorem groupPath_eq (key : Key (Span π)) (s : State π) :
    ∃ edgePath, (groupPath key s).1.1 = { key with edgePath } := by
  rw [groupPath, bind_apply]
  cases (acceptBehind '.' s).1 with
  | found => exact ⟨_, rfl⟩
  | other | lineEnd =>
    cases key
    exact ⟨_, rfl⟩

theorem groupIndex_eq (key : Key (Span π)) (s : State π) :
    ∃ edgeIndex edgePath, (groupIndex key s).1.1 = { key with edgeIndex, edgePath } := by
  rw [groupIndex, bind_apply]
  cases (acceptBehind '[' s).1 with
  | found =>
    dsimp only
    rw [bind_apply]
    exact ⟨_, groupPath_eq _ _⟩
  | other =>
    obtain ⟨edgePath, heq⟩ := groupPath_eq key (acceptBehind '[' s).2
    cases key
    exact ⟨_, edgePath, heq⟩
  | lineEnd =>
    cases key
    exact ⟨_, _, rfl⟩

/-- Inside the parentheses, neither a path nor a value of the key is read. -/
theorem groupParts_eq (key : Key (Span π)) (s : State π) :
    ∃ edges edgeIndex edgePath,
      (groupParts key s).1.1 = { key with edges, edgeIndex, edgePath } := by
  rw [groupParts, bind_apply, bind_apply, bind_apply]
  cases (acceptBehind ')' _).1 with
  | found => exact ⟨_, groupIndex_eq _ _⟩
  | other | lineEnd => exact ⟨_, key.edgeIndex, key.edgePath, rfl⟩

section

variable {value : Grammar π (Option (Value (Span π)))}

/-- Behind the parentheses, the reading is outside of the group again. -/
theorem edgeGroup_reads (hgroup : F.inGroup = false)
    (hvalue : Reads F (Value.Within F.cover) value) : ReadsParts F (edgeGroup value) := by
  intro n key p hn hkey
  refine .setGroup (.call (groupParts_reads (F := F.grouped true) hn hkey) fun r q hq hr => ?_)
  obtain ⟨key', goesOn⟩ := r
  refine .setGroup ?_
  rw [Frame.grouped_grouped hgroup]
  refine .ite (fun _ => ?_) fun _ => .done hq hr
  exact (keyValue_reads hvalue n key' q (by omega) hr).tail hq fun _ _ _ h => h

theorem keyBehindPath_reads (hgroup : F.inGroup = false)
    (hvalue : Reads F (Value.Within F.cover) value) : ReadsParts F (keyBehindPath value) := by
  intro n key p hn hkey
  refine .peekOnLine (.done (Nat.le_refl _) hkey) fun b c _ =>
    .ite (fun _ => ?_) fun _ => .ite (fun _ => .retreat ?_) fun _ => .retreat ?_
  · have hopened : key.PartsWithin F.cover n (c :: (b ++ []) ++ p).length :=
      hkey.mono (by simp; omega)
    exact .accept ((edgeGroup_reads hgroup hvalue n key _ (by simp; omega) hopened).tail
      (by simp; omega) fun _ _ _ h => h)
  · refine .call (edges_reads hn hkey.1) fun edges q hq hedges => ?_
    have hkey' := hkey.behindEdges hq hedges
    exact (keyValue_reads hvalue n _ q (by omega) hkey').tail hq fun _ _ _ h => h
  · exact keyValue_reads hvalue n key p hn hkey

theorem keyBehindAmpersand_reads (hgroup : F.inGroup = false)
    (hvalue : Reads F (Value.Within F.cover) value) : ReadsParts F (keyBehindAmpersand value) := by
  intro n key p hn hkey
  refine .peek (.done (Nat.le_refl _) hkey) fun c => .ite (fun _ => ?_) fun _ => .retreat ?_
  · have hopened := hkey.mono (Nat.le_succ p.length)
    exact .accept ((edgeGroup_reads hgroup hvalue n key (c :: p) (by simp; omega) hopened).tail
      (by simp) fun _ _ _ h => h)
  · refine .call (path_reads p) fun path q hq hpath => ?_
    have hkey' := hkey.behindPath hn hq hpath
    exact (keyBehindPath_reads hgroup hvalue n _ q (by omega) hkey').tail hq fun _ _ _ h => h

theorem keyParts_reads (hgroup : F.inGroup = false)
    (hvalue : Reads F (Value.Within F.cover) value) : ReadsParts F (keyParts value) := by
  intro n key p hn hkey
  refine .peek (.done (Nat.le_refl _) hkey) fun c => .ite (fun _ => .accept ?_) fun _ => .retreat ?_
  · have hkey' : Key.PartsWithin F.cover n { key with ampersand := true } (c :: p).length :=
      hkey.mono (Nat.le_succ p.length)
    exact (keyBehindAmpersand_reads hgroup hvalue n _ (c :: p) (by simp; omega) hkey').tail
      (by simp) fun _ _ _ h => h
  · exact keyBehindAmpersand_reads hgroup hvalue n key p hn hkey

/-- **Keys**: a key and its parts lie where they were read. -/
theorem key_reads (hgroup : F.inGroup = false) (hvalue : Reads F (Value.Within F.cover) value) :
    Reads F (Key.Within F.cover) (key value) := by
  intro p
  refine .here (.call (keyParts_reads hgroup hvalue _ _ p (Nat.le_refl _) (.empty _))
    fun k q hq hk => .here (.ite (fun _ => .done hq ?_) fun _ => .done hq (by simp)))
  intro x hx
  obtain rfl := Option.some.inj hx
  exact hk.within hq

end

/-- The characters that no key starts with and that are no part of one. -/
def namelessCharacters : List Char :=
  ['.', ';', '#', '{', '}']

section

variable {c : Char} (hc : c ∈ namelessCharacters)

include hc

theorem nameless_visible : isBlank c = false := by
  have hall : ∀ x ∈ namelessCharacters, isBlank x = false := by
    simp [namelessCharacters, isBlank]
  exact hall c hc

/-- None of them starts a text in another form, an edge group, an edge or a value. -/
theorem nameless_ne {x : Char} (hx : x ∈ ['"', '\'', '|', '(', ')', '&', '<', '>', '-', ':']) :
    c ≠ x := by
  rintro rfl
  have hall : ∀ x ∈ ['"', '\'', '|', '(', ')', '&', '<', '>', '-', ':'],
      x ∉ namelessCharacters := by
    simp [namelessCharacters]
  exact hall c hx hc

theorem nameless_ends : endsUnquoted (.key : Role π) c = true := by
  simp only [namelessCharacters, List.mem_cons, List.not_mem_nil, or_false] at hc
  rcases hc with rfl | rfl | rfl | rfl | rfl <;> rfl

variable {p : List Char} (hnext : F.text[p.length]? = some c)

include hnext

-- from the inside out: no text, then no path, then no part of a key, each without a character
theorem text_nameless :
    Ensures (State.At F p []) (text .key) fun r s => r = none ∧ s.At F p [] := by
  refine .peekOnLineKnown hnext (nameless_visible hc) (.accept
    (.ite (fun h => absurd h (nameless_ne hc (by simp))) fun _ =>
      .ite (fun h => absurd h (nameless_ne hc (by simp))) fun _ =>
      .ite (fun h => absurd h (nameless_ne hc (by simp))) fun _ => ?_))
  refine .putBack (ne_newline_of_visible (nameless_visible hc)) (.here ?_)
  refine .bind (R := fun u s => u.text = Gathered.empty ∧ s.At F p []) ?_ fun u => ?_
  · have hparenthesis : c ≠ ')' := nameless_ne hc (by simp)
    refine .repeating_once (.peekKnown hnext (.inGroup ?_))
    simp only [hparenthesis, nameless_ends hc, decide_false, Bool.and_false, if_true]
    exact .retreat (.pure fun s hs => ⟨_, rfl, rfl, hs⟩)
  · rintro s ⟨htext, hs⟩
    rw [htext]
    exact ⟨rfl, hs⟩

theorem path_nameless : Ensures (State.At F p []) path fun r s => r = none ∧ s.At F p [] := by
  refine .here (.bind (R := fun segments s => segments = [] ∧ s.At F p []) ?_ fun segments => ?_)
  · refine .repeating_once (.peekOnLineKnown hnext (nameless_visible hc) (.retreat
      (.ite (fun h => absurd h (nameless_ne hc (by simp))) fun _ =>
        .bind (text_nameless hc hnext) fun r => ?_)))
    rintro s ⟨rfl, hs⟩
    exact ⟨[], rfl, rfl, hs⟩
  · rintro s ⟨rfl, hs⟩
    exact ⟨rfl, hs⟩

variable (value : Grammar π (Option (Value (Span π)))) (range : Span π)

theorem keyValue_nameless :
    Ensures (State.At F p []) (keyValue value (.empty range))
      fun k s => k.isNamed = false ∧ s.At F p [] := by
  have hdone : Ensures (State.At F p []) (pure (.empty range))
      fun (k : Key (Span π)) s => k.isNamed = false ∧ s.At F p [] := .pure fun s hs => ⟨rfl, hs⟩
  exact .peekOnLineKnown hnext (nameless_visible hc) (.ite (fun _ => .retreat hdone) fun _ =>
    .ite (fun h => absurd h (nameless_ne hc (by simp))) fun _ => .retreat hdone)

theorem keyParts_nameless :
    Ensures (State.At F p []) (keyParts value (.empty range))
      fun k s => k.isNamed = false ∧ s.At F p [] := by
  refine .peekKnown hnext (.ite (fun h => absurd h (nameless_ne hc (by simp))) fun _ => .retreat
    (.peekKnown hnext (.ite (fun h => absurd h (nameless_ne hc (by simp))) fun _ => .retreat
      (.bind (path_nameless hc hnext) fun r => .of_and ?_))))
  rintro rfl
  have hless : c ≠ '<' := nameless_ne hc (by simp)
  have hgreater : c ≠ '>' := nameless_ne hc (by simp)
  have hdash : c ≠ '-' := nameless_ne hc (by simp)
  refine .peekOnLineKnown hnext (nameless_visible hc)
    (.ite (fun h => absurd h (nameless_ne hc (by simp))) fun _ => .ite (fun h => ?_) fun _ =>
      .retreat (keyValue_nameless hc hnext value range))
  simp [hless, hgreater, hdash] at h

/-- One of these characters alone names nothing, and it is not read. -/
theorem key_nameless :
    Ensures (State.At F p []) (key value) fun r s => r = none ∧ s.At F p [] := by
  refine .here (.bind (keyParts_nameless hc hnext value _) fun k =>
    .of_and fun hunnamed => .here ?_)
  rw [hunnamed]
  exact .pure fun s hs => ⟨rfl, hs⟩

end

/-! ## Maps and sequences -/

/-- Where a remark lies. -/
def Remark.Within {ρ : Type} (cover : Nat → Nat → ρ) : Remark ρ → Nat → Nat → Prop
  | .comment c => c.Within cover
  | .blockComment c => c.Within cover
  | .substitution s => s.Within cover

theorem Remark.toEntry_within {ρ : Type} {cover : Nat → Nat → ρ} {r : Remark ρ} {lo hi : Nat}
    (h : r.Within cover lo hi) : r.toEntry.Within cover lo hi := by
  cases r <;> exact h

theorem Remark.toItem_within {ρ : Type} {cover : Nat → Nat → ρ} {r : Remark ρ} {lo hi : Nat}
    (h : r.Within cover lo hi) : r.toItem.Within cover lo hi := by
  cases r <;> exact h

/-- The substitution that a remark spreads has `B`. -/
def Remark.Spreads {ρ : Type} (B : Substitution ρ → Prop) : Remark ρ → Prop
  | .comment _ | .blockComment _ => True
  | .substitution s => B s

/-- A node of a container starts with a remark, which has been read, or at the character that was
read, which is not the `#` of a comment. What holds of every substitution that spreads holds of the
one in a remark. -/
theorem Ensures.nodeStartSpread {β : Type} {c : Char} {p : List Char}
    {f : Start (Span π) → Grammar π β} {Q : β → State π → Prop} {B : Substitution (Span π) → Prop}
    (hspread : ∀ p, Ensures (State.At F ('$' :: '.' :: '.' :: '.' :: p) []) (substitution true)
      fun r _ => ∀ s ∈ r, B s)
    (hc : isBlank c = false)
    (hremark : ∀ (r : Option (Remark (Span π))) (q : List Char), p.length < q.length →
      (∀ x ∈ r, x.Within F.cover p.length q.length ∧ x.Spreads B) →
      Ensures (State.At F q []) (f (.remark r)) Q)
    (hnode : c ≠ '#' → Ensures (State.At F p []) (f .node) Q) :
    Ensures (State.At F (c :: p) []) (nodeStart c >>= f) Q := by
  have hstart : c ≠ '#' → Ensures (State.At F (c :: p) []) (startNode c >>= f) Q :=
    fun h => by
      rw [startNode, bind_assoc]
      exact .putBack (ne_newline_of_visible hc) (hnode h)
  rw [Grammar.nodeStart]
  by_cases hhash : c = '#'
  · subst hhash
    rw [if_pos rfl, bind_assoc]
    exact .call (comment_reads p) fun r q hq hr =>
      hremark _ q hq fun x hx => Option.some.inj hx ▸ ⟨hr, trivial⟩
  by_cases hquote : c = '"'
  · subst hquote
    rw [if_neg hhash, if_pos rfl, bind_assoc]
    refine .acceptExactly ?_ (hstart hhash)
    simp only [if_true, bind_assoc, pure_bind]
    exact .call (blockComment_reads p) fun r q hq hr =>
      hremark _ q hq fun x hx => Option.some.inj hx ▸ ⟨hr, trivial⟩
  by_cases hpoint : c = '.'
  · subst hpoint
    rw [if_neg hhash, if_neg hquote, if_pos rfl, bind_assoc]
    refine .acceptExactly ?_ (hstart hhash)
    simp only [if_true, bind_assoc, pure_bind]
    -- what is given for a substitution is known in addition to the place where it is read
    have hread : Ensures (State.At F ('$' :: '.' :: '.' :: '.' :: p) []) (substitution true)
        (Onward F (p.length + 1) fun r j => ∀ s ∈ r, s.Within F.cover p.length j ∧ B s) := by
      intro s hs
      obtain ⟨q, hq, hat, hwithin⟩ := spreadSubstitution_reads p s hs
      exact ⟨q, hq, hat, fun x hx => ⟨hwithin x hx, hspread p s hs x hx⟩⟩
    refine .call hread fun r q hq hr => hremark _ q hq fun x hx => ?_
    obtain ⟨s, hs, rfl⟩ := Option.map_eq_some_iff.mp hx
    exact hr s hs
  · rw [if_neg hhash, if_neg hquote, if_neg hpoint]
    exact hstart hhash

theorem Ensures.nodeStart {β : Type} {c : Char} {p : List Char}
    {f : Start (Span π) → Grammar π β} {Q : β → State π → Prop} (hc : isBlank c = false)
    (hremark : ∀ (r : Option (Remark (Span π))) (q : List Char), p.length < q.length →
      (∀ x ∈ r, x.Within F.cover p.length q.length) →
      Ensures (State.At F q []) (f (.remark r)) Q)
    (hnode : c ≠ '#' → Ensures (State.At F p []) (f .node) Q) :
    Ensures (State.At F (c :: p) []) (nodeStart c >>= f) Q :=
  .nodeStartSpread (B := fun _ => True) (fun _ _ _ _ _ => trivial) hc
    (fun r q hq hr => hremark r q hq fun x hx => (hr x hx).1) hnode

section

variable {value : Grammar π (Option (Value (Span π)))}

theorem entry_reads (hgroup : F.inGroup = false) (hvalue : Reads F (Value.Within F.cover) value)
    {c : Char} (hc : isBlank c = false) (p : List Char) :
    Ensures (State.At F (c :: p) []) (entry value c)
      (Onward F p.length fun r j => (∀ e ∈ r, e.Within F.cover p.length j) ∧
        (p.length < j ∨ c ≠ '#' ∧ ∀ b, r ≠ some (.blockComment b))) := by
  refine .nodeStart hc (fun r q hq hr => ?_) fun hhash => ?_
  · refine .done (by omega) ⟨fun e he => ?_, .inl hq⟩
    obtain ⟨x, hx, rfl⟩ := Option.map_eq_some_iff.mp he
    exact Remark.toEntry_within (hr x hx)
  · refine .mapped (key_reads hgroup hvalue p) fun k j hk => ⟨fun e he => ?_, .inr ⟨hhash, ?_⟩⟩
    · obtain ⟨x, hx, rfl⟩ := Option.map_eq_some_iff.mp he
      exact hk x hx
    · cases k <;> simp

theorem item_reads (hvalue : Reads F (Value.Within F.cover) value)
    {c : Char} (hc : isBlank c = false) (p : List Char) :
    Ensures (State.At F (c :: p) []) (item value c)
      (Onward F p.length fun r j => (∀ x ∈ r, x.Within F.cover p.length j) ∧
        (p.length < j ∨ c ≠ '#' ∧ ∀ b, r ≠ some (.blockComment b))) := by
  refine .nodeStart hc (fun r q hq hr => ?_) fun hhash => ?_
  · refine .done (by omega) ⟨fun e he => ?_, .inl hq⟩
    obtain ⟨x, hx, rfl⟩ := Option.map_eq_some_iff.mp he
    exact Remark.toItem_within (hr x hx)
  · refine .call (hvalue p) fun v q hq hv => ?_
    cases v with
    | some v => exact .done hq ⟨fun x hx => Option.some.inj hx ▸ hv v rfl, .inr ⟨hhash, by simp⟩⟩
    | none =>
      refine .here (.read (.reportToHere (.done hq ?_)) fun x => .reportToHere (.done ?_ ?_))
      · exact ⟨by simp, .inr ⟨hhash, by simp⟩⟩
      · simp
        omega
      · exact ⟨by simp, .inr ⟨hhash, by simp⟩⟩

variable [DecidableEq π]

/-- The entries gathered lie in order between `n` and `i`. -/
def EntriesWithin (F : Frame π) (n : Nat) (entries : List (Entry (Span π))) (i : Nat) : Prop :=
  InOrder (Entry.Within F.cover) entries.reverse n i

/-- The items gathered lie in order between `n` and `i`. -/
def ItemsWithin (F : Frame π) (n : Nat) (items : List (Item (Span π))) (i : Nat) : Prop :=
  InOrder (Item.Within F.cover) items.reverse n i

theorem entryLine_reads (hgroup : F.inGroup = false)
    (hvalue : Reads F (Value.Within F.cover) value) {entries : List (Entry (Span π))} {c : Char}
    {m : Nat} {p : List Char} (hc : isBlank c = false) (hsemicolon : c ≠ ';') (hclosing : c ≠ '}')
    (hm : m ≤ p.length) (hentries : EntriesWithin F n entries p.length) :
    Ensures (State.At F (c :: p) []) (entryLine value entries c)
      (Steps F m (EntriesWithin F n) (EntriesWithin F n)) := by
  refine .known_of_consumed fun hnext => .call (entry_reads hgroup hvalue hc p) fun e q hq he => ?_
  obtain ⟨hin, hbeyond⟩ := he
  have hmore : EntriesWithin F n (e.toList ++ entries) q.length := by
    cases e with
    | none => exact InOrder.mono hentries hq
    | some e => exact InOrder.snoc hentries fun k hk => (hin e rfl).mono hk (Nat.le_refl _)
  split
  · next b =>
    have hlt : p.length < q.length := hbeyond.resolve_right fun h => h.2 b rfl
    exact Steps.again (by omega) hmore
  · refine .call (trailingText_reads _ _ _ q) fun _ q' hq' hstarts => ?_
    have hlt := lt_of_not_startsText hq hnext hc hsemicolon hclosing
      (hbeyond.imp_right And.left) hq' hstarts
    exact Steps.again (by omega) (InOrder.mono hmore hq')

theorem mapStep_reads (hgroup : F.inGroup = false)
    (hvalue : Reads F (Value.Within F.cover) value) (opened : Option π)
    {entries : List (Entry (Span π))} {p : List Char}
    (hentries : EntriesWithin F n entries p.length) :
    Ensures (State.At F p []) (mapStep value opened entries)
      (Steps F p.length (EntriesWithin F n) (EntriesWithin F n)) := by
  refine .readVisible (fun hp => ?_) fun b c hc => .ite (fun _ => ?_) fun hsemicolon =>
    .ite ?_ fun hclosing => ?_
  · have hend : Ensures (State.At F F.text.reverse []) (pure (.stop entries))
        (Steps F p.length (EntriesWithin F n) (EntriesWithin F n)) :=
      Steps.stop (by simpa using hp) (InOrder.mono hentries (by simpa using hp))
    cases opened with
    | none => exact hend
    | some start => exact .reportToReach hend
  · exact Steps.again (by simp only [List.length_cons, List.length_append]; omega)
      (InOrder.mono hentries (by simp; omega))
  · rintro rfl
    have hbehind : EntriesWithin F n entries ('}' :: (b ++ p)).length :=
      InOrder.mono hentries (by simp; omega)
    have hlt : p.length < ('}' :: (b ++ p)).length := by
      simp only [List.length_cons, List.length_append]
      omega
    refine .ite (fun _ => Steps.stop (Nat.le_of_lt hlt) hbehind) fun _ => ?_
    rw [reportStrayMapEnd, bind_assoc]
    exact .placeOf (by decide) (.reportToHere (Steps.again hlt hbehind))
  · exact entryLine_reads hgroup hvalue hc hsemicolon hclosing (by simp)
      (InOrder.mono hentries (by simp))

/-- **Maps**: a map lies from its brace to where reading has come, with its entries in order. -/
theorem map_reads (hgroup : F.inGroup = false)
    (hvalue : F.depth < F.limit → Reads F.deeper (Value.Within F.cover) value) (p : List Char) :
    Ensures (State.At F ('{' :: p) []) (map value)
      (Onward F p.length fun m j => m.Within F.cover p.length j) := by
  refine .outsideGroup hgroup (.placeOf (by decide) (.atLimit (.ite (fun _ => ?_) fun hroom => ?_)))
  · refine .call (skipContainer_reads _ _ _ _ _) fun _ q hq _ => ?_
    rw [List.length_cons] at hq
    have hpq : p.length ≤ q.length := by omega
    exact .here (.done hpq ⟨p.length, q.length, Nat.le_refl _, hpq, Nat.le_refl _, rfl, hpq⟩)
  · have hdepth : F.depth < F.limit := by simpa using hroom
    refine .nested (repeating_ensures (I := EntriesWithin F.deeper p.length)
      (fun _ _ h => mapStep_reads (F := F.deeper) hgroup (hvalue hdepth) _ h) ?_)
      fun entries q hq hentries => ?_
    · exact Nat.le_succ p.length
    · rw [List.length_cons] at hq
      refine .here (.done (by omega) ?_)
      refine ⟨p.length, q.length, Nat.le_refl _, by omega, Nat.le_refl _, rfl, ?_⟩
      rw [Entry.allInOrder_iff]
      exact hentries

/-- The map of a whole file lies from where reading starts to where it has come. -/
theorem fileMap_reads (hgroup : F.inGroup = false)
    (hvalue : Reads F (Value.Within F.cover) value) (p : List Char) :
    Ensures (State.At F p []) (fileMap value)
      (Onward F p.length fun m j => m.Within F.cover p.length j) := by
  refine .outsideGroup hgroup (.here (.call (repeating_ensures (I := EntriesWithin F p.length)
    (fun _ _ h => mapStep_reads hgroup hvalue none h) (Nat.le_refl _)) fun entries q hq h => ?_))
  refine .here (.done hq ⟨p.length, q.length, Nat.le_refl _, hq, Nat.le_refl _, rfl, ?_⟩)
  rw [Entry.allInOrder_iff]
  exact h

/-- The map of a file goes on behind every entry. -/
theorem mapStepFrom_again (value : Grammar π (Option (Value (Span π))))
    (entries : List (Entry (Span π))) (c : Char) (s : State π) :
    ∃ entries', (mapStepFrom value none entries c s).1 = .again entries' := by
  by_cases hsemicolon : c = ';'
  · exact ⟨entries, by rw [mapStepFrom, if_pos hsemicolon]; rfl⟩
  by_cases hclosing : c = '}'
  · exact ⟨entries, by rw [mapStepFrom, if_neg hsemicolon, if_pos hclosing]; rfl⟩
  rw [mapStepFrom, if_neg hsemicolon, if_neg hclosing, entryLine, bind_apply]
  match (entry value c s).1 with
  | some (.blockComment b) => exact ⟨_, rfl⟩
  | none | some (.comment _) | some (.substitution _) | some (.key _) => exact ⟨_, rfl⟩

/-- The map of a file stops where the source has come to its end. -/
theorem mapStep_finishes (value : Grammar π (Option (Value (Span π))))
    (entries : List (Entry (Span π))) (p : List Char) :
    Ensures (State.At F p []) (mapStep value none entries)
      fun next s => ∀ entries', next = .stop entries' → s.Finished F := by
  intro s hs entries' hstop
  rcases Reader.blank_or_visible s.reader.unread with hblank | ⟨b, c, u, hu, hb, hc⟩
  · obtain ⟨r, hread, hr, -⟩ := hs.reader.readVisible_none hblank
    have htext : s.reader.unread.reverse ++ p = F.text.reverse := by
      simp [← hs.reader.text]
    rw [htext] at hr
    rw [mapStep, readVisible, reading_bind, hread]
    exact ⟨hs.setReader hr, hs.reader.readVisible_ended hread⟩
  · obtain ⟨r, hread, -, -⟩ := hs.reader.readVisible_some hu hb hc
    rw [mapStep, readVisible, reading_bind, hread] at hstop
    obtain ⟨entries'', hagain⟩ := mapStepFrom_again value entries c { s with reader := r }
    cases hagain.symm.trans hstop

/-- A file is read to the end of its source, and its map covers all that is read. -/
theorem fileMap_finishes (hgroup : F.inGroup = false)
    (hvalue : Reads F (Value.Within F.cover) value) (p : List Char) :
    Ensures (State.At F p []) (fileMap value) fun m s =>
      m.range = F.cover p.length F.text.length ∧ s.Finished F := by
  refine .outsideGroup hgroup (.here (.bind (repeating_stops (I := EntriesWithin F p.length)
    (fun _ _ h => mapStep_reads hgroup hvalue none h)
    (fun entries q => mapStep_finishes value entries q) (Nat.le_refl _)) fun entries => ?_))
  intro s hs
  have hplace : s.reader.place = F.mark F.text.length := by
    rw [hs.stands.reader.mark, List.length_reverse]
  refine ⟨?_, hs⟩
  show (⟨_, s.reader.place⟩ : Span π) = _
  rw [hplace]
  rfl

theorem itemLine_reads (hvalue : Reads F (Value.Within F.cover) value)
    {items : List (Item (Span π))} {c : Char} {m : Nat} {p : List Char} (hc : isBlank c = false)
    (hsemicolon : c ≠ ';') (hclosing : c ≠ ']') (hm : m ≤ p.length)
    (hitems : ItemsWithin F n items p.length) :
    Ensures (State.At F (c :: p) []) (itemLine value items c)
      (Steps F m (ItemsWithin F n) (ItemsWithin F n)) := by
  refine .known_of_consumed fun hnext => .call (item_reads hvalue hc p) fun x q hq hx => ?_
  obtain ⟨hin, hbeyond⟩ := hx
  have hmore : ItemsWithin F n (x.toList ++ items) q.length := by
    cases x with
    | none => exact InOrder.mono hitems hq
    | some x => exact InOrder.snoc hitems fun k hk => (hin x rfl).mono hk (Nat.le_refl _)
  split
  · next b =>
    have hlt : p.length < q.length := hbeyond.resolve_right fun h => h.2 b rfl
    exact Steps.again (by omega) hmore
  · refine .call (trailingText_reads _ _ _ q) fun _ q' hq' hstarts => ?_
    have hlt := lt_of_not_startsText hq hnext hc hsemicolon hclosing
      (hbeyond.imp_right And.left) hq' hstarts
    exact Steps.again (by omega) (InOrder.mono hmore hq')

theorem sequenceStep_reads (hvalue : Reads F (Value.Within F.cover) value) (start : π)
    {items : List (Item (Span π))} {p : List Char} (hitems : ItemsWithin F n items p.length) :
    Ensures (State.At F p []) (sequenceStep value start items)
      (Steps F p.length (ItemsWithin F n) (ItemsWithin F n)) := by
  refine .readVisible (fun hp => ?_) fun b c hc => .ite (fun _ => ?_) fun hsemicolon =>
    .ite (fun _ => ?_) fun hclosing => ?_
  · exact .reportToReach (Steps.stop (by simpa using hp) (InOrder.mono hitems (by simpa using hp)))
  · exact Steps.again (by simp only [List.length_cons, List.length_append]; omega)
      (InOrder.mono hitems (by simp; omega))
  · exact Steps.stop (by simp; omega) (InOrder.mono hitems (by simp; omega))
  · exact itemLine_reads hvalue hc hsemicolon hclosing (by simp) (InOrder.mono hitems (by simp))

/-- **Sequences**: a sequence lies from its bracket to where reading has come, with its items in
order. -/
theorem sequence_reads
    (hvalue : F.depth < F.limit → Reads F.deeper (Value.Within F.cover) value) (p : List Char) :
    Ensures (State.At F ('[' :: p) []) (sequence value)
      (Onward F p.length fun s j => s.Within F.cover p.length j) := by
  refine .placeOf (by decide) (.atLimit (.ite (fun _ => ?_) fun hroom => ?_))
  · refine .call (skipContainer_reads _ _ _ _ _) fun _ q hq _ => ?_
    rw [List.length_cons] at hq
    have hpq : p.length ≤ q.length := by omega
    exact .here (.done hpq ⟨p.length, q.length, Nat.le_refl _, hpq, Nat.le_refl _, rfl, hpq⟩)
  · have hdepth : F.depth < F.limit := by simpa using hroom
    refine .nested (repeating_ensures (I := ItemsWithin F.deeper p.length)
      (fun _ _ h => sequenceStep_reads (F := F.deeper) (hvalue hdepth) _ h) ?_)
      fun items q hq hitems => ?_
    · exact Nat.le_succ p.length
    · rw [List.length_cons] at hq
      refine .here (.done (by omega) ?_)
      refine ⟨p.length, q.length, Nat.le_refl _, by omega, Nat.le_refl _, rfl, ?_⟩
      rw [Item.allInOrder_iff]
      exact hitems

end

/-! ## Values -/

variable [DecidableEq π]

theorem valueFrom_reads {inner : Grammar π (Option (Value (Span π)))}
    (hgroup : F.inGroup = false)
    (hinner : F.depth < F.limit → Reads F.deeper (Value.Within F.cover) inner) {c : Char}
    (hc : isBlank c = false) (p : List Char) :
    Ensures (State.At F (c :: p) []) (valueFrom inner c)
      (Onward F p.length fun r j => ∀ v ∈ r, v.Within F.cover p.length j) := by
  refine .ite ?_ fun _ => .ite ?_ fun _ => .putBack (ne_newline_of_visible hc) ?_
  · rintro rfl
    exact (sequence_reads hinner p).mapped fun s j hs v hv => Option.some.inj hv ▸ hs
  · rintro rfl
    exact (map_reads hgroup hinner p).mapped fun m j hm v hv => Option.some.inj hv ▸ hm
  · refine (valueText_reads p).mapped fun t j ht v hv => ?_
    obtain ⟨x, hx, rfl⟩ := Option.map_eq_some_iff.mp hv
    exact scalarOf_within (ht x hx)

theorem valueWithin_succ_reads {room : Nat} (hgroup : F.inGroup = false)
    (hinner : F.depth < F.limit → Reads F.deeper (Value.Within F.cover) (valueWithin room)) :
    Reads F (Value.Within F.cover) (valueWithin (room + 1)) := by
  intro p
  refine .outsideGroup hgroup (.peekOnLine (.done (Nat.le_refl _) (by simp)) fun b c hc => ?_)
  refine .accept ?_
  rw [List.append_nil]
  refine (valueFrom_reads hgroup hinner hc (b ++ p)).tail (by simp) fun r j _ h v hv => ?_
  exact (h v hv).mono (by simp) (Nat.le_refl _)

/-- **Values**: with room for all the containers that may be entered, a value lies where it was
read. -/
theorem valueWithin_reads (room : Nat) (hgroup : F.inGroup = false)
    (hroom : F.limit ≤ F.depth + room) :
    Reads F (Value.Within F.cover) (valueWithin (room + 1)) := by
  induction room generalizing F with
  | zero => exact valueWithin_succ_reads hgroup fun hdepth => absurd hdepth (by omega)
  | succ room ih =>
    refine valueWithin_succ_reads hgroup fun _ => ih (F := F.deeper) hgroup ?_
    simp only [Frame.deeper]
    omega

theorem value_reads (hgroup : F.inGroup = false) : Reads F (Value.Within F.cover) value := by
  intro p s hs
  have h := valueWithin_reads F.limit hgroup (Nat.le_add_left _ _) p s hs
  rwa [← hs.limit] at h

end Diagram.Grammar
