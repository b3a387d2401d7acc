import Diagram.Proofs.Sound.Rules

/-!
Every repetition comes to an end. The grammar repeats a step within a bound on the number of steps;
`Runs` is the same repetition without one. It has a course only if finitely many steps lead to one
that stops, and each of those before it leaves behind more characters consumed than it found.
-/
namespace Diagram

variable {π σ : Type}

/-! ## Repetition without a bound -/

namespace Grammar

/-- The course of a repetition from its first step to the one that stops it. Every step that goes
on has consumed something, whatever it has put back. -/
inductive Runs (step : σ → Grammar π (Next σ)) : σ → State π → σ → State π → Prop
  | stop {g g' : σ} {s : State π} (h : (step g s).1 = .stop g') : Runs step g s g' (step g s).2
  | again {g g' g'' : σ} {s s'' : State π} (h : (step g s).1 = .again g')
    (hpast : s.reader.past.length < (step g s).2.reader.past.length)
    (hrest : Runs step g' (step g s).2 g'' s'') : Runs step g s g'' s''

/-- A repetition from `g` has a course from every state with nothing looked at and with `P`, and
within its bound it comes to the end of it. -/
def Finishes (step : σ → Grammar π (Next σ)) (g : σ) (P : State π → Prop := fun _ => True) : Prop :=
  ∀ s, s.Ready [] → P s → Runs step g s (repeating step g s).1 (repeating step g s).2

section

variable {F : Frame π} {step : σ → Grammar π (Next σ)} {I Q : σ → Nat → Prop}

theorem repeatWithin_runs
    (hstep : ∀ g p, I g p.length → Ensures (State.At F p []) (step g) (Steps F p.length I Q))
    {n : Nat} {g : σ} {p : List Char} {s : State π} (hg : I g p.length) (hs : s.At F p [])
    (hn : F.budget < n + p.length) :
    Runs step g s (repeatWithin step n g s).1 (repeatWithin step n g s).2 := by
  -- the bound does not end the repetition: a step takes one off it, but consumes a character
  induction n generalizing g p s with
  | zero =>
    have hleft := hs.reader.left
    omega
  | succ n ih =>
    have hafter := hstep g p hg s hs
    cases hnext : (step g s).1 with
    | stop g' =>
      rw [repeatWithin_stop hnext]
      exact .stop hnext
    | again g' =>
      rw [hnext] at hafter
      obtain ⟨q, hq, hat, hI⟩ := hafter
      rw [repeatWithin_again hnext (hs.left_lt hat hq)]
      apply Runs.again hnext
      · rw [hs.reader.past, hat.reader.past]
        exact hq
      · exact ih hI hat (by omega)

theorem repeating_runs
    (hstep : ∀ g p, I g p.length → Ensures (State.At F p []) (step g) (Steps F p.length I Q))
    {g : σ} {p : List Char} {s : State π} (hg : I g p.length) (hs : s.At F p []) :
    Runs step g s (repeating step g s).1 (repeating step g s).2 := by
  have hleft := hs.reader.left
  exact repeatWithin_runs hstep hg hs (n := s.reader.left + 1) (by omega)

end

/-- A repetition that needs to know nothing of what it gathers. -/
theorem Finishes.of_steps {step : σ → Grammar π (Next σ)} {P : State π → Prop}
    (hstep : ∀ (F : Frame π) g p, Ensures (State.At F p []) (step g)
      (Steps F p.length (fun _ _ => True) fun _ _ => True)) (g : σ) : Finishes step g P := by
  intro s ⟨F, p, hs⟩ _
  exact repeating_runs (I := fun _ _ => True) (fun g p _ => hstep F g p) trivial hs

end Grammar

/-! ## Blanks -/

namespace Reader

variable {t : Tape π} {p l : List Char} {r : Reader π}

/-- Reading over blanks ends with the text at the latest, however many steps are allowed. -/
theorem At.readVisibleWithin_eq (h : r.At t p []) {m n : Nat} (hm : r.unread.length < m)
    (hn : r.unread.length < n) : r.readVisibleWithin m = r.readVisibleWithin n := by
  induction m generalizing r p n with
  | zero => omega
  | succ m ih =>
    obtain ⟨n, rfl⟩ : ∃ k, n = k + 1 := ⟨n - 1, by omega⟩
    match hu : r.unread with
    | [] =>
      obtain ⟨r₁, hread, -, -⟩ := h.read_nil hu
      simp only [readVisibleWithin, hread]
    | c :: u =>
      obtain ⟨r₁, hread, h₁, -⟩ := h.read_cons hu
      have hu₁ := h.unread_of_read hu h₁
      rw [hu, List.length_cons] at hm hn
      simp only [readVisibleWithin, hread]
      rw [ih h₁ (n := n) (by rw [hu₁]; omega) (by rw [hu₁]; omega)]

/-- Looking over blanks ends with the text at the latest, however many steps are allowed. -/
theorem At.peekVisibleWithin_eq (h : r.At t p l) {m n : Nat} (hm : r.unread.length < m)
    (hn : r.unread.length < n) (k : Nat) : r.peekVisibleWithin m k = r.peekVisibleWithin n k := by
  induction m generalizing r l n k with
  | zero => omega
  | succ m ih =>
    obtain ⟨n, rfl⟩ : ∃ k, n = k + 1 := ⟨n - 1, by omega⟩
    match hu : r.unread with
    | [] =>
      obtain ⟨r₁, hpeek, -, -⟩ := h.peek_nil hu
      simp only [peekVisibleWithin, hpeek]
    | c :: u =>
      obtain ⟨r₁, hpeek, h₁, -⟩ := h.peek_cons hu
      have hu₁ := h.unread_of_cons hu h₁
      rw [hu, List.length_cons] at hm hn
      simp only [peekVisibleWithin, hpeek]
      rw [ih h₁ (n := n) (by rw [hu₁]; omega) (by rw [hu₁]; omega)]

end Reader

/-! ## The repetitions of the grammar -/

namespace Grammar

/-- Every repetition of the grammar finishes, from whatever state it may be started in, and so does
the skipping of blanks, however many steps it is allowed. -/
structure AllFinish (π : Type) [DecidableEq π] : Prop where
  readVisible : ∀ s : State π, s.Ready [] → ∀ n, s.reader.left < n →
    s.reader.readVisible = s.reader.readVisibleWithin n
  peekVisible : ∀ (F : Frame π) p l (s : State π), s.At F p l → ∀ n, s.reader.left < n →
    s.reader.peekVisible = s.reader.peekVisibleWithin n 0
  commentCharacter : ∀ g, Finishes (π := π) Grammar.commentCharacter g
  nextCommentLine : ∀ text, Finishes (π := π) Grammar.nextCommentLine text
  openingBlank : ∀ o, Finishes (π := π) Grammar.openingBlank o
  blockCharacter : ∀ first rest text,
    Finishes (π := π) (Grammar.blockCharacter first rest) ⟨text, false⟩
  runCharacter : ∀ stops run, Finishes (π := π) (Grammar.runCharacter stops) run
  unquotedCharacter : ∀ role ∈ [.key, .value (Grammar.substitution false)], ∀ start : π,
    Finishes (Grammar.unquotedCharacter role) ⟨.empty, start⟩ fun s => s.reader.place = start
  doubleQuotedCharacter : ∀ role ∈ [.key, .value (Grammar.substitution false)], ∀ start : π,
    Finishes (Grammar.doubleQuotedCharacter role start) .empty
  singleQuotedCharacter : ∀ (start : π) text, Finishes (Grammar.singleQuotedCharacter start) text
  pathSegment : Finishes (π := π) Grammar.pathSegment []
  edgeCharacter : ∀ (start : π) head, Finishes (Grammar.edgeCharacter start) head
  nextEdge : ∀ key : Key (Span π), Finishes Grammar.nextEdge ⟨[], key.path⟩ (BehindParts key)
  indexDigit : ∀ (start : π) digits, Finishes (Grammar.indexDigit start) digits
  skipCharacter : ∀ opening closing, Finishes (π := π) (Grammar.skipCharacter opening closing) 1
  trailingCharacter : ∀ closing, Finishes (π := π) (Grammar.trailingCharacter closing) ()
  mapStep : ∀ inner (opened : Option π), Finishes (Grammar.mapStep inner opened) [] (Outside inner)
  sequenceStep : ∀ inner (start : π), Finishes (Grammar.sequenceStep inner start) [] (Outside inner)

theorem unquoted_finishes {role : Role π} (h : role ∈ [.key, .value (substitution false)])
    (start : π) :
    Finishes (unquotedCharacter role) ⟨.empty, start⟩ fun s => s.reader.place = start := by
  intro s ⟨F, p, hs⟩ hstart
  have hplace : start = F.mark p.length := hstart.symm.trans hs.reader.mark
  have hempty : Unquoted.Within F p.length ⟨.empty, start⟩ p.length :=
    ⟨p.length, Nat.le_refl _, Nat.le_refl _, hplace, Nat.le_refl _⟩
  exact repeating_runs (fun _ _ hu => unquotedCharacter_reads (role_reads h) hu) hempty hs

theorem nextEdge_finishes (key : Key (Span π)) :
    Finishes nextEdge ⟨[], key.path⟩ (BehindParts key) := by
  intro s _ ⟨F, p, n, hs, hn, hkey⟩
  have hempty : Chain.Within F n ⟨[], key.path⟩ p.length := ⟨hn, by simp, hkey.1⟩
  exact repeating_runs (fun _ _ hchain => nextEdge_reads hchain) hempty hs

variable [DecidableEq π]

theorem mapStep_finishes_outside (inner : Grammar π (Option (Value (Span π)))) (opened : Option π) :
    Finishes (mapStep inner opened) [] (Outside inner) := by
  intro s ⟨F, p, hs⟩ ⟨hgroup, hinner⟩
  have hF : F.inGroup = false := hs.inGroup ▸ hgroup
  have hempty : EntriesWithin F p.length [] p.length := Nat.le_refl _
  exact repeating_runs (fun _ _ h => mapStep_reads hF (hinner.reads hs hF) opened h) hempty hs

theorem sequenceStep_finishes_outside (inner : Grammar π (Option (Value (Span π)))) (start : π) :
    Finishes (sequenceStep inner start) [] (Outside inner) := by
  intro s ⟨F, p, hs⟩ ⟨hgroup, hinner⟩
  have hF : F.inGroup = false := hs.inGroup ▸ hgroup
  have hempty : ItemsWithin F p.length [] p.length := Nat.le_refl _
  exact repeating_runs (fun _ _ h => sequenceStep_reads (hinner.reads hs hF) start h) hempty hs

theorem allFinish : AllFinish π where
  readVisible s := by
    intro ⟨F, p, hs⟩ n hn
    have hunread := hs.reader.unread_le
    rw [List.length_nil] at hunread
    exact hs.reader.readVisibleWithin_eq (by omega) (by omega)
  peekVisible F p l s hs n hn := by
    have hunread := hs.reader.unread_le
    exact hs.reader.peekVisibleWithin_eq (by omega) (by omega) 0
  commentCharacter := .of_steps fun _ => commentCharacter_reads
  nextCommentLine := .of_steps fun _ => nextCommentLine_reads
  openingBlank := .of_steps fun _ => openingBlank_reads
  blockCharacter first rest text := by
    intro s ⟨F, p, hs⟩ _
    exact repeating_runs (fun _ q hopen => blockCharacter_reads first rest q hopen) rfl hs
  runCharacter stops := .of_steps fun _ => runCharacter_reads stops
  unquotedCharacter _ h := unquoted_finishes h
  doubleQuotedCharacter role h start := by
    intro s ⟨F, p, hs⟩ _
    have hempty : Gathered.empty.Within F.cover p.length p.length := Nat.le_refl _
    exact repeating_runs (fun _ _ htext => doubleQuotedCharacter_reads (role_reads h) htext)
      hempty hs
  singleQuotedCharacter start := .of_steps fun _ => singleQuotedCharacter_reads start
  pathSegment := by
    intro s ⟨F, p, hs⟩ _
    have hempty : PathWithin F p.length [] p.length := Nat.le_refl _
    exact repeating_runs (fun _ _ hsegments => pathSegment_reads hsegments) hempty hs
  edgeCharacter start := .of_steps fun _ => edgeCharacter_reads start
  nextEdge := nextEdge_finishes
  indexDigit start := .of_steps fun _ => indexDigit_reads start
  skipCharacter opening closing := by
    intro s ⟨F, p, hs⟩ _
    exact repeating_runs (fun _ q hnesting => skipCharacter_reads opening closing q hnesting)
      Nat.one_pos hs
  trailingCharacter closing := by
    intro s ⟨F, p, hs⟩ _
    exact repeating_runs (fun u q _ => trailingCharacter_reads closing u q) trivial hs
  mapStep := mapStep_finishes_outside
  sequenceStep := sequenceStep_finishes_outside

end Grammar

/-! ## The end of the source -/

theorem Grammar.fileMap_state [DecidableEq π] {s : State π} (hgroup : s.inGroup = false) :
    (fileMap value s).2 = (repeating (mapStep value none) [] s).2 := by
  simp only [fileMap, outsideGroup, bind_apply, inGroup, asking_apply, hgroup, whenever]
  rfl

/-- **Everything is read**: every repetition of the grammar finishes, and with them the reading of
a file. By then the source has ended or failed, all that it delivered has been consumed, no rule has
been broken, and the range of the map runs from the start to the place behind all that was
delivered. -/
theorem parse_finishes : Grammar.AllFinish Position ∧
    ∀ (label : String) (source : List Delivery) (options : Options),
      let start := State.ofSource options.counting.meter source options.maxDepth
      let s := (readFile options.counting.meter source options.maxDepth).2
      (∃ entries, Grammar.Runs (Grammar.mapStep Grammar.value none) [] start entries s) ∧
      s.reader.ended = true ∧
      s.reader.past.reverse = delivered source ∧
      s.reader.looked = [] ∧
      s.reader.queued = [] ∧
      s.reader.breach = none ∧
      (parse label source options).map.range =
        ⟨label, .start, .after options.counting (delivered source)⟩ := by
  refine ⟨Grammar.allFinish, fun label source options => ?_⟩
  intro start s
  have hat := State.ofSource_at options.counting.meter_lawful source options.maxDepth
  obtain ⟨hrange, hstands, hended⟩ :=
    Grammar.fileMap_finishes rfl (Grammar.value_reads rfl) [] _ hat
  have hstate : s = (Grammar.repeating (Grammar.mapStep Grammar.value none) [] start).2 :=
    Grammar.fileMap_state rfl
  have hruns := Grammar.mapStep_finishes_outside Grammar.value none start ⟨_, [], hat⟩
    ⟨rfl, .anywhere⟩
  change State.At _ _ [] s at hstands
  have hunread : s.reader.unread = [] := by
    rw [hstands.reader.unread_eq]
    simp
  refine ⟨?course, hended, ?past, hstands.reader.looked, ?queued, hstands.reader.breach, ?range⟩
  case course =>
    rw [hstate]
    exact ⟨_, hruns⟩
  case past =>
    rw [hstands.reader.past, List.reverse_reverse]
    rfl
  case queued => exact (List.append_eq_nil_iff.mp hunread).1
  case range =>
    show (Span.toRange label (readFile options.counting.meter source options.maxDepth).1.range) = _
    rw [readFile, hrange]
    simp [Span.toRange, Frame.cover, Tape.mark, Frame.ofSource, Counting.meter_after]
    rfl

end Diagram
