import Diagram.Proofs.Sound.Block
import Diagram.Proofs.Twin.Repetition

/-!
Comments and blocks in two runs side by side. At the end of its text, the first run ends a comment
that may go on behind a new line, and it finds a block that is not closed.
-/
namespace Diagram.Grammar

variable {π : Type} {K : Pairing π} {p : List Char}

/-! ## Line comments -/

theorem commentCharacter_alike (g : Bool × List Char) (p : List Char) :
    Alike K (Twin K p []) (commentCharacter g) (commentCharacter g) Never
      (Meets K (Next.map id)) := by
  refine .peekLine (if_pos rfl) (.done rfl) fun c => .ite Iff.rfl (fun _ => ?_) fun _ => ?_
  · exact .retreat (.done rfl)
  · exact .accept (.done rfl)

theorem commentLine_alike (text p : List Char) :
    Alike K (Twin K p []) (commentLine text) (commentLine text) Never (Meets K id) :=
  .call (repeating_alike_never trivial (fun g p _ => commentCharacter_reads g p)
    fun g p _ => commentCharacter_alike g p) fun _ _ => .done rfl

/-- The first run has come to the end of its text in a comment, and behind that is a `#`. -/
def CommentGoesOn (K : Pairing π) (s : State Nat) : Prop :=
  firstVisible K.tail = some '#' ∧ K.Spent s

theorem nextCommentLine_alike (text p : List Char) :
    Alike K (Twin K p []) (nextCommentLine text) (nextCommentLine text)
      (Stops fun _ => CommentGoesOn K) (Meets K (Next.map id)) := by
  refine .peekVisible (.done rfl) (fun htail c n hfirst hn => ?_) fun b c _ => ?_
  · -- the lines of a comment go on behind the new line only if the next one starts with `#`
    by_cases hc : c = '#'
    · subst hc
      refine .crossedStray fun hblank s hs => .inr ⟨htail, text, rfl, hfirst, p, hs, hblank⟩
    · have hleave : (c != '#' || decide (2 ≤ n)) = true := by simp [hc]
      dsimp only
      rw [if_pos hleave]
      exact .crossedRetreat (.done rfl)
  · refine .ite Iff.rfl (fun _ => .retreat (.done rfl)) fun _ => .accept ?_
    exact .call (commentLine_alike _ _) fun _ _ => .done rfl

theorem comment_alike (p : List Char) :
    Alike K (Twin K ('#' :: p) []) comment comment (fun _ => CommentGoesOn K)
      (Meets K (Comment.mapMarks (Span.map K.place))) := by
  refine .placeOf (by decide) (.call (commentLine_alike _ _) fun text q => ?_)
  refine .callStray (repeating_alike_stops trivial (fun g p _ => nextCommentLine_reads g p)
    fun g p _ => nextCommentLine_alike g p) ?_ fun text q => .here (.done rfl)
  exact fun htail text s hs => .inr ⟨htail, hs⟩

/-! ## Blocks -/

theorem openingBlank_alike (o : Opening) (p : List Char) :
    Alike K (Twin K p []) (openingBlank o) (openingBlank o) (Stops fun o _ => o = .ended)
      (Meets K (Next.map id)) := by
  refine .peek (fun _ => .done rfl) (fun htail _ s hs => ?_) fun c =>
    .ite Iff.rfl (fun _ => .accept ?_) fun _ => .retreat (.done rfl)
  · exact .inr ⟨htail, .ended, rfl, rfl⟩
  · by_cases hc : c = '\n'
    · simp only [if_pos hc]
      exact .done rfl
    · simp only [if_neg hc]
      exact .done rfl

theorem opening_alike (p : List Char) :
    Alike K (Twin K p []) opening opening (fun o _ => o = .ended) (Meets K id) :=
  repeating_alike_stops trivial (fun o p _ => openingBlank_reads o p)
    fun o p _ => openingBlank_alike o p

/-- The content of a block is not closed where the text ends. -/
def Unclosed (content : Content) (_ : State Nat) : Prop :=
  content.closed = false

theorem blockCharacter_alike (first : Char) (rest : List Char) {content : Content} (p : List Char)
    (hopen : content.closed = false) :
    Alike K (Twin K p []) (blockCharacter first rest content) (blockCharacter first rest content)
      (Stops Unclosed) (Meets K (Next.map id)) := by
  refine .read (fun _ => .done rfl) (fun htail s hs => ?_) fun c =>
    .ite Iff.rfl (fun _ => .done rfl) fun _ => ?_
  · exact .inr ⟨htail, content, rfl, hopen⟩
  · refine .peekMany (fun _ => .done rfl) (fun htail s hs => ?_) fun seen =>
      .ite Iff.rfl (fun _ => .accept (.done rfl)) fun _ => .retreat (.done rfl)
    exact .inr ⟨htail, content, rfl, hopen⟩

theorem blockContent_alike (first : Char) (rest text p : List Char) :
    Alike K (Twin K p []) (blockContent first rest text) (blockContent first rest text) Unclosed
      (Meets K id) :=
  repeating_alike_stops (f := id) rfl (fun _ p h => blockCharacter_reads first rest p h)
    fun _ p h => blockCharacter_alike first rest p h

theorem commentContent_alike (p : List Char) :
    Alike K (Twin K p []) commentContent commentContent Unclosed (Meets K id) := by
  refine .callStray (opening_alike p) (fun htail o => ?_) fun o q => ?_
  · rintro s rfl
    exact .inr ⟨htail, rfl⟩
  · cases o with
    | ended => exact .done rfl
    | newLine | sameLine => exact blockContent_alike _ _ _ q

/-- A block that is not closed is reported behind its level. -/
theorem astray_unclosed {α : Type} {E : α → State Nat → Prop} {content : Content} {cause : Cause}
    {start : Nat} {f : Unit → Grammar Nat α} (htail : K.tail ≠ []) :
    Ensures (Unclosed content)
      (ascend >>= fun _ => whenever (!content.closed) (reportToReach cause start) >>= f)
      (K.Astray E) := by
  intro s hopen
  have hreport : whenever (!content.closed) (reportToReach cause start) =
      reportToReach cause start := by
    rw [hopen]
    rfl
  rw [hreport]
  exact Ensures.astray_reportToReach (P := fun _ => True) htail _ trivial

theorem blockComment_alike (p : List Char) :
    Alike K (Twin K ('"' :: '"' :: '"' :: p) []) blockComment blockComment Never
      (Meets K (Comment.mapMarks (Span.map K.place))) := by
  refine .here (.beforeAll (b := []) (p := p) rfl rfl (by simp) ?_)
  refine .nested (commentContent_alike _) (fun htail content => ?_) fun content q => ?_
  · exact astray_unclosed htail
  · refine .whenever (fun _ => .reportToReach fun _ => ?_) fun _ => ?_
    · exact .here (.done rfl)
    · exact .here (.done rfl)

theorem runCharacter_alike (stops : Char → Bool) (run : List Char × Bool) (p : List Char) :
    Alike K (Twin K p []) (runCharacter stops run) (runCharacter stops run)
      (Stops fun run _ => run.2 = true) (Meets K (Next.map id)) := by
  refine .peek (fun _ => .done rfl) (fun htail _ s hs => ?_) fun c =>
    .ite Iff.rfl (fun _ => .retreat (.done rfl)) fun _ => .accept (.done rfl)
  exact .inr ⟨htail, (run.1, true), rfl, rfl⟩

theorem runUntil_alike (stops : Char → Bool) (p : List Char) :
    Alike K (Twin K p []) (runUntil stops) (runUntil stops) (fun run _ => run.2 = true)
      (Meets K id) :=
  .callStray (repeating_alike_stops trivial (fun run p _ => runCharacter_reads stops run p)
    fun run p _ => runCharacter_alike stops run p)
    (fun htail _ _ hended => .inr ⟨htail, hended⟩) fun _ _ => .done rfl

theorem textContentFrom_alike (quote text p : List Char) :
    Alike K (Twin K p []) (textContentFrom quote text) (textContentFrom quote text) Unclosed
      (Meets K id) := by
  cases quote with
  | nil => exact blockContent_alike _ _ _ p
  | cons first rest => exact blockContent_alike _ _ _ p

/-- The text on the line of the opening delimiter is as deep in both runs. -/
theorem textContent_alike (hshift : K.shift = 0) (quote p : List Char) :
    Alike K (Twin K p []) (textContent quote) (textContent quote) Unclosed (Meets K id) := by
  refine .callStray (opening_alike p) (fun htail o => ?_) fun o q => ?_
  · rintro s rfl
    exact .inr ⟨htail, rfl⟩
  · cases o with
    | ended => exact .done rfl
    | newLine => exact textContentFrom_alike _ _ q
    | sameLine =>
      refine .depth ?_
      rw [hshift]
      exact textContentFrom_alike _ _ q

theorem block_alike (hshift : K.shift = 0) (p : List Char) :
    Alike K (Twin K p []) block block (fun b => Unclosed b.content) (Meets K id) := by
  refine .callStray (runUntil_alike endsBlockQuote p) (fun htail run s hended => ?_) fun run q => ?_
  · obtain ⟨quote, ended⟩ := run
    obtain rfl : ended = true := hended
    exact .inr ⟨htail, rfl⟩
  refine .ite Iff.rfl (fun _ => .done rfl) fun _ => ?_
  refine .callStray (runUntil_alike isBlank q) (fun htail tag s hended => ?_) fun tag q => ?_
  · obtain ⟨tag, ended⟩ := tag
    obtain rfl : ended = true := hended
    exact .inr ⟨htail, rfl⟩
  refine .ite Iff.rfl (fun _ => .done rfl) fun _ => ?_
  refine .callStray (textContent_alike hshift _ q) (fun htail content s hopen => ?_) fun _ _ =>
    .done rfl
  exact .inr ⟨htail, hopen⟩

theorem blockText_alike (hshift : K.shift = 0) (p : List Char) :
    Alike K (Twin K ('|' :: p) []) blockText blockText Never
      (Meets K (Text.mapMarks (Span.map K.place))) := by
  refine .placeOf (by decide) (.nested (block_alike (K := K.deeper) hshift _) (fun htail b => ?_)
    fun b q => ?_)
  · exact astray_unclosed htail
  · refine .whenever (fun _ => .reportToReach fun _ => ?_) fun _ => ?_
    · exact .here (.done rfl)
    · exact .here (.done rfl)

end Diagram.Grammar
