import Diagram.Grammar.Block
import Diagram.Grammar.Comment
import Diagram.Proofs.Logic
import Diagram.Proofs.Within

/-!
Comments and blocks keep the rules of the reader, and their nodes lie where they were read.
-/
namespace Diagram.Grammar

variable {π : Type} {F : Frame π}

/-! ## Line comments -/

theorem commentCharacter_reads (g : Bool × List Char) (p : List Char) :
    Ensures (State.At F p []) (commentCharacter g)
      (Steps F p.length (fun _ _ => True) fun _ _ => True) := by
  refine .peek (Steps.stop (Nat.le_refl _) trivial) fun c => .ite (fun _ => ?_) fun _ => ?_
  · exact .retreat (Steps.stop (Nat.le_refl _) trivial)
  · exact .accept (Steps.again (by simp) trivial)

theorem commentLine_reads (text p : List Char) :
    Ensures (State.At F p []) (commentLine text) (Onward F p.length fun _ _ => True) :=
  .call (repeating_ensures (fun g p _ => commentCharacter_reads g p) trivial)
    fun _ _ hq _ => .done hq trivial

theorem nextCommentLine_reads (text p : List Char) :
    Ensures (State.At F p []) (nextCommentLine text)
      (Steps F p.length (fun _ _ => True) fun _ _ => True) := by
  refine .peekVisible (Steps.stop (Nat.le_refl _) trivial) fun b c _ =>
    .ite (fun _ => ?_) fun _ => ?_
  · exact .retreat (Steps.stop (Nat.le_refl _) trivial)
  · refine .accept (.call (commentLine_reads _ _) fun _ q hq _ => Steps.again ?_ trivial)
    simp at hq
    omega

/-- A comment covers what is read from its first `#` on. -/
theorem comment_covers (p : List Char) :
    Ensures (State.At F ('#' :: p) []) comment
      (Onward F (p.length + 1) fun c j => c.range = F.cover p.length j) := by
  refine .placeOf (by decide) (.call (commentLine_reads _ _) fun text q hq _ => ?_)
  refine .call (repeating_ensures (fun g p _ => nextCommentLine_reads g p) trivial)
    fun text q' hq' _ => .here (.done ?_ rfl)
  simp at hq
  omega

/-- A comment lies from its first `#` to where reading has come. -/
theorem comment_reads (p : List Char) :
    Ensures (State.At F ('#' :: p) []) comment
      (Onward F (p.length + 1) fun c j => c.Within F.cover p.length j) :=
  (comment_covers p).tail (Nat.le_refl _) fun _ j hj hrange =>
    ⟨p.length, j, Nat.le_refl _, by omega, Nat.le_refl _, hrange, trivial⟩

/-! ## Blocks -/

theorem openingBlank_reads (o : Opening) (p : List Char) :
    Ensures (State.At F p []) (openingBlank o)
      (Steps F p.length (fun _ _ => True) fun _ _ => True) := by
  refine .peek (Steps.stop (Nat.le_refl _) trivial) fun c => .ite (fun _ => .accept ?_) fun _ => ?_
  · by_cases hc : c = '\n'
    · rw [if_pos hc]
      exact Steps.stop (by simp) trivial
    · rw [if_neg hc]
      exact Steps.again (by simp) trivial
  · exact .retreat (Steps.stop (Nat.le_refl _) trivial)

theorem opening_reads (p : List Char) :
    Ensures (State.At F p []) opening (Onward F p.length fun _ _ => True) :=
  repeating_ensures (fun o p _ => openingBlank_reads o p) trivial

/-- A block is not closed as long as reading goes on. -/
theorem blockCharacter_reads (first : Char) (rest : List Char) {content : Content} (p : List Char)
    (hopen : content.closed = false) :
    Ensures (State.At F p []) (blockCharacter first rest content)
      (Steps F p.length (fun content _ => content.closed = false) fun _ _ => True) := by
  refine .read (Steps.stop (Nat.le_refl _) trivial) fun c => .ite (fun _ => ?_) fun _ => ?_
  · exact Steps.again (by simp) hopen
  · refine .peekMany (Steps.stop (by simp) trivial) fun seen => .ite (fun _ => ?_) fun _ => ?_
    · refine .accept (Steps.stop ?_ trivial)
      simp
      omega
    · exact .retreat (Steps.again (by simp) hopen)

theorem blockContent_reads (first : Char) (rest text p : List Char) :
    Ensures (State.At F p []) (blockContent first rest text) (Onward F p.length fun _ _ => True) :=
  repeating_ensures (fun _ p h => blockCharacter_reads first rest p h) rfl

theorem commentContent_reads (p : List Char) :
    Ensures (State.At F p []) commentContent (Onward F p.length fun _ _ => True) := by
  refine .call (opening_reads p) fun o q hq _ => ?_
  cases o with
  | ended => exact .done hq trivial
  | newLine | sameLine => exact (blockContent_reads _ _ _ q).tail hq fun _ _ _ h => h

/-- A block comment covers what is read from its opening quotes on. -/
theorem blockComment_covers (p : List Char) :
    Ensures (State.At F ('"' :: '"' :: '"' :: p) []) blockComment
      (Onward F (p.length + 1) fun c j => c.range = F.cover p.length j) := by
  refine .here (.beforeAll (b := []) (p := p) rfl rfl (by simp) ?_)
  refine .nested (commentContent_reads _) fun content q hq _ => ?_
  simp at hq
  exact .whenever (fun _ => .reportToReach_stays) (.here (.done (by omega) rfl))

/-- A block comment lies from its opening quotes to where reading has come. -/
theorem blockComment_reads (p : List Char) :
    Ensures (State.At F ('"' :: '"' :: '"' :: p) []) blockComment
      (Onward F (p.length + 1) fun c j => c.Within F.cover p.length j) :=
  (blockComment_covers p).tail (Nat.le_refl _) fun _ j hj hrange =>
    ⟨p.length, j, Nat.le_refl _, by omega, Nat.le_refl _, hrange, trivial⟩

theorem runCharacter_reads (stops : Char → Bool) (run : List Char × Bool) (p : List Char) :
    Ensures (State.At F p []) (runCharacter stops run)
      (Steps F p.length (fun _ _ => True) fun _ _ => True) := by
  refine .peek (Steps.stop (Nat.le_refl _) trivial) fun c => .ite (fun _ => ?_) fun _ => ?_
  · exact .retreat (Steps.stop (Nat.le_refl _) trivial)
  · exact .accept (Steps.again (by simp) trivial)

theorem runUntil_reads (stops : Char → Bool) (p : List Char) :
    Ensures (State.At F p []) (runUntil stops) (Onward F p.length fun _ _ => True) :=
  .call (repeating_ensures (fun run p _ => runCharacter_reads stops run p) trivial)
    fun _ _ hq _ => .done hq trivial

theorem textContent_reads (quote p : List Char) :
    Ensures (State.At F p []) (textContent quote) (Onward F p.length fun _ _ => True) := by
  have hfrom : ∀ text q, Ensures (State.At F q []) (textContentFrom quote text)
      (Onward F q.length fun _ _ => True) := by
    intro text q
    cases quote with
    | nil => exact blockContent_reads _ _ _ q
    | cons first rest => exact blockContent_reads _ _ _ q
  refine .call (opening_reads p) fun o q hq _ => ?_
  cases o with
  | ended => exact .done hq trivial
  | newLine => exact (hfrom _ q).tail hq fun _ _ _ h => h
  | sameLine => exact .depth ((hfrom _ q).tail hq fun _ _ _ h => h)

theorem block_reads (p : List Char) :
    Ensures (State.At F p []) block (Onward F p.length fun _ _ => True) := by
  refine .call (runUntil_reads endsBlockQuote p) fun quote q hq _ => .ite (fun _ => ?_) fun _ => ?_
  · exact .done hq trivial
  · refine .call (runUntil_reads isBlank q) fun tag q' hq' _ => .ite (fun _ => ?_) fun _ => ?_
    · exact .done (by omega) trivial
    · exact .call (textContent_reads _ q') fun _ _ hq'' _ => .done (by omega) trivial

/-- A block text lies from its `|` to where reading has come. -/
theorem blockText_reads (p : List Char) :
    Ensures (State.At F ('|' :: p) []) blockText
      (Onward F p.length fun t j => t.Within F.cover p.length j) := by
  refine .placeOf (by decide) (.nested (block_reads _) fun b q hq _ => ?_)
  simp at hq
  refine .whenever (fun _ => .reportToReach_stays) (.here (.done (by omega) ?_))
  exact ⟨p.length, q.length, Nat.le_refl _, by omega, Nat.le_refl _, rfl, trivial⟩

end Diagram.Grammar
