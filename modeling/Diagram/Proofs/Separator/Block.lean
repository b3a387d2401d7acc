import Diagram.Proofs.Separator.Steps
import Diagram.Proofs.Twin.Block

/-!
Comments and blocks in front of a semicolon. They take the semicolon for text: a comment goes on
over it, and a block that the text does not close is reported by the first run.
-/
namespace Diagram.Grammar

variable {S : Seam} {p : List Char}

/-- Nothing visible is left where nothing visible is ahead. -/
theorem spent_of_stands {u : List Char} {s : State Nat} (hu : ∀ x ∈ u, isBlank x = true)
    (h : s.Stands S.first p [] u) : S.pairing.Spent s := by
  refine ⟨p, h.stands, ?_⟩
  have hrest : S.first.text.drop p.length = u := by simp [← h.text]
  rwa [← hrest] at hu

/-! ## Line comments -/

theorem commentCharacter_abreast (g : Bool × List Char) (p : List Char) :
    Abreast S (S.Beside p []) (commentCharacter g)
      (Strays (Stops fun _ => S.pairing.Spent)) := by
  refine .peekStray (X := Stops fun _ => S.pairing.Spent) (fun s hs => ?_) (fun _ _ _ _ h => h)
    fun c => .ite (fun _ => .retreat .done) fun _ => .accept .done
  exact .inr ⟨S.tail_ne_nil, g, rfl, spent_of_stands (by simp) hs⟩

theorem commentLine_abreast (text p : List Char) :
    Abreast S (S.Beside p []) (commentLine text) (Strays fun _ => S.pairing.Spent) :=
  .callStray (repeating_strays trivial trivial (fun g p _ => commentCharacter_reads g p)
    (fun g p _ => commentCharacter_reads g p) fun g p _ _ => commentCharacter_abreast g p)
    (fun _ _ => .pure fun _ _ h => h) fun _ _ => .done

/-- Where only blanks are left, there is no further line of a comment. -/
theorem nextCommentLine_spent (text : List Char) :
    Ensures S.pairing.Spent (repeating nextCommentLine text) fun _ => S.pairing.Spent := by
  refine .repeating_once ?_
  rintro s ⟨q, hs, hblank⟩
  obtain ⟨r, hpeek, hr, -⟩ :=
    hs.reader.peekVisible_none (by simpa [hs.reader.unread_eq] using hblank)
  rw [nextCommentLine, peekVisible, reading_bind, hpeek]
  exact ⟨text, rfl, q, hs.setReader hr, hblank⟩

theorem nextCommentLine_abreast (text p : List Char) :
    Abreast S (S.Beside p []) (nextCommentLine text)
      (Strays fun next s => (∃ text, next = .again text) ∧ S.pairing.Spent s) := by
  refine .peekVisible (fun b _ => ?_) fun b c _ => .ite (fun _ => .retreat .done) fun _ =>
    .accept ?_
  · have hleave : (';' != '#' || decide (2 ≤ b.count '\n')) = true := rfl
    dsimp only
    rw [if_pos hleave]
    exact .aside .done
  · exact .callStray (commentLine_abreast _ _) (fun a _ => .pure fun _ _ h => ⟨⟨a, rfl⟩, h⟩)
      fun _ _ => .done

/-- A comment that the text ends in has been read to the end of the text. -/
theorem comment_abreast (p : List Char) :
    Abreast S (S.Beside ('#' :: p) []) comment (Strays fun _ => S.pairing.Spent) := by
  refine .placeOf (by decide) (.callStray (commentLine_abreast _ _) (fun text _ => ?_) fun text q =>
    .callStray (repeating_abreast (E := Strays fun _ => S.pairing.Spent) trivial trivial
      (fun g p _ => nextCommentLine_reads g p) (fun g p _ => nextCommentLine_reads g p)
      (fun g p _ _ => nextCommentLine_abreast g p) ?_) (fun _ _ _ _ h => .apart h) fun _ _ =>
        .here .done)
  · exact .strays (fun s hs => .inr ⟨S.tail_ne_nil, nextCommentLine_spent text s hs⟩)
      (fun _ _ h => h) fun _ _ _ _ h => h
  · rintro _ b s t ⟨⟨text, rfl⟩, hs⟩
    exact .apart (nextCommentLine_spent text s hs)

/-! ## Blocks -/

theorem openingBlank_abreast (o : Opening) (p : List Char) :
    Abreast S (S.Beside p []) (openingBlank o) (Strays (Stops fun o _ => o = .ended)) := by
  refine .peekStray (X := Stops fun o _ => o = .ended) (fun s _ => ?_) (fun _ _ _ _ h => h)
    fun c => .ite (fun _ => .accept .done) fun _ => .retreat .done
  exact .inr ⟨S.tail_ne_nil, .ended, rfl, rfl⟩

theorem opening_abreast (p : List Char) :
    Abreast S (S.Beside p []) opening (Strays fun o _ => o = .ended) :=
  repeating_strays trivial trivial (fun o p _ => openingBlank_reads o p)
    (fun o p _ => openingBlank_reads o p) fun o p _ _ => openingBlank_abreast o p

theorem blockCharacter_abreast (first : Char) (rest : List Char) {content : Content} (p : List Char)
    (hopen : content.closed = false) :
    Abreast S (S.Beside p []) (blockCharacter first rest content) (Strays (Stops Unclosed)) := by
  have hunclosed : ∀ p, Ensures (State.At S.first p []) (pure (.stop content))
      (S.pairing.Astray (Stops Unclosed)) := fun p _ _ =>
    .inr ⟨S.tail_ne_nil, content, rfl, hopen⟩
  refine .read (hunclosed p) (fun _ _ _ _ h => h) fun c => .ite (fun _ => .done) fun _ => ?_
  exact .peekMany (hunclosed _) (fun _ _ _ _ h => h) fun seen =>
    .ite (fun _ => .accept .done) fun _ => .retreat .done

theorem blockContent_abreast (first : Char) (rest text p : List Char) :
    Abreast S (S.Beside p []) (blockContent first rest text) (Strays Unclosed) :=
  repeating_strays rfl rfl (fun _ p h => blockCharacter_reads first rest p h)
    (fun _ p h => blockCharacter_reads first rest p h)
    fun _ p h _ => blockCharacter_abreast first rest p h

theorem commentContent_abreast (p : List Char) :
    Abreast S (S.Beside p []) commentContent (Strays Unclosed) := by
  refine .callStray (opening_abreast p) (fun o b => ?_) fun o q => ?_
  · rintro s t rfl
    exact .apart rfl
  · cases o with
    | ended => exact .done
    | newLine | sameLine => exact blockContent_abreast _ _ _ q

theorem blockComment_abreast (p : List Char) :
    Abreast S (S.Beside p []) blockComment Nowhere := by
  refine .here (.beforeAll (by simp) (.nested (commentContent_abreast _) (fun content _ => ?_)
    fun content q => ?_))
  · exact .moot (astray_unclosed S.tail_ne_nil) fun _ _ h => h
  · exact .whenever (fun _ => .reportToReach) fun _ => .here .done

theorem runCharacter_abreast (stops : Char → Bool) (run : List Char × Bool) (p : List Char) :
    Abreast S (S.Beside p []) (runCharacter stops run)
      (Strays (Stops fun run _ => run.2 = true)) := by
  refine .peekStray (X := Stops fun run _ => run.2 = true) (fun s _ => ?_) (fun _ _ _ _ h => h)
    fun c => .ite (fun _ => .retreat .done) fun _ => .accept .done
  exact .inr ⟨S.tail_ne_nil, (run.1, true), rfl, rfl⟩

theorem runUntil_abreast (stops : Char → Bool) (p : List Char) :
    Abreast S (S.Beside p []) (runUntil stops) (Strays fun run _ => run.2 = true) :=
  .callStray (repeating_strays trivial trivial (fun run p _ => runCharacter_reads stops run p)
    (fun run p _ => runCharacter_reads stops run p)
    fun run p _ _ => runCharacter_abreast stops run p)
    (fun _ _ _ _ h => .apart h) fun _ _ => .done

theorem textContentFrom_abreast (quote text p : List Char) :
    Abreast S (S.Beside p []) (textContentFrom quote text) (Strays Unclosed) := by
  cases quote with
  | nil => exact blockContent_abreast _ _ _ p
  | cons first rest => exact blockContent_abreast _ _ _ p

theorem textContent_abreast (quote p : List Char) :
    Abreast S (S.Beside p []) (textContent quote) (Strays Unclosed) := by
  refine .callStray (opening_abreast p) (fun o b => ?_) fun o q => ?_
  · rintro s t rfl
    exact .apart rfl
  · cases o with
    | ended => exact .done
    | newLine => exact textContentFrom_abreast _ _ q
    | sameLine => exact .depth (textContentFrom_abreast _ _ q)

theorem block_abreast (p : List Char) :
    Abreast S (S.Beside p []) block (Strays fun b => Unclosed b.content) := by
  refine .callStray (runUntil_abreast endsBlockQuote p) (fun run b => ?_) fun run q => ?_
  · obtain ⟨quote, ended⟩ := run
    rintro s t rfl
    exact .apart rfl
  refine .ite (fun _ => .done) fun _ => ?_
  refine .callStray (runUntil_abreast isBlank q) (fun run b => ?_) fun tag q => ?_
  · obtain ⟨tag, ended⟩ := run
    rintro s t rfl
    exact .apart rfl
  refine .ite (fun _ => .done) fun _ => ?_
  exact .callStray (textContent_abreast _ q) (fun _ _ _ _ h => .apart h) fun _ _ => .done

theorem blockText_abreast (p : List Char) :
    Abreast S (S.Beside ('|' :: p) []) blockText Nowhere := by
  refine .placeOf (by decide) (.nested (block_abreast (S := S.deeper) _) (fun b _ => ?_)
    fun b q => ?_)
  · exact .moot (astray_unclosed S.tail_ne_nil) fun _ _ h => h
  · exact .whenever (fun _ => .reportToReach) fun _ => .here .done

end Diagram.Grammar
