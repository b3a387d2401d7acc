import Diagram.Proofs.Document.Container
import Diagram.Chars.Lines

/-!
Comments that are written line by line are read back. Every line of a comment starts with a hash and
a space; what else is on it, blanks and hashes included, belongs to its text. Lines that follow each
other make one comment, and an empty line is enough to keep two comments apart.
-/
namespace Diagram

/-! ## How comments are written -/

/-- A line of a comment. -/
def commentedLine (line : List Char) : List Char := '#' :: ' ' :: line

/-- The comment with this text. -/
def commented (text : String) : List Char :=
  unlines ((lines text.toList).map commentedLine)

/-- The comments with these texts, one after the other, with an empty line between them. -/
def commentedAll (texts : List String) : String :=
  String.ofList (['\n', '\n'].intercalate (texts.map commented))

example : commentedAll ["a\n\n # b", ""] = "# a\n# \n#  # b\n\n# " := by decide

/-- The text of an entry that is a comment. -/
def Entry.commentText? {ρ : Type} : Entry ρ → Option String
  | .comment c => some c.text
  | _ => none

theorem Entry.commentText?_mapMarks {ρ σ : Type} (f : ρ → σ) (e : Entry ρ) :
    (e.mapMarks f).commentText? = e.commentText? := by
  cases e <;> rfl

/-- Behind its first line, a comment goes on with its other lines. -/
theorem commented_lines {text : String} {first : List Char} {rest : List (List Char)}
    (h : lines text.toList = first :: rest) :
    commented text =
      '#' :: ' ' :: (first ++ rest.flatMap fun line => '\n' :: commentedLine line) := by
  rw [commented, h, List.map_cons, unlines, joinWith_cons, List.flatMap_map]
  rfl

namespace Grammar

variable {π : Type} {F : Frame π} {p u b line text : List Char}

/-- Nothing follows a comment, or an empty line does. -/
def EndsComment (u : List Char) : Prop :=
  u = [] ∨ ∃ v, u = '\n' :: '\n' :: v

theorem EndsComment.endsLine (h : EndsComment u) : EndsLine u := by
  rcases h with rfl | ⟨v, rfl⟩
  · simp [EndsLine]
  · simp [EndsLine]

theorem endsLine_flatMap (rest : List (List Char)) (hu : EndsComment u) :
    EndsLine ((rest.flatMap fun line => '\n' :: commentedLine line) ++ u) := by
  cases rest with
  | nil => exact hu.endsLine
  | cons line rest => simp [EndsLine]

/-! ## Lines -/

/-- The rest of a line is gathered as it stands. -/
theorem commentCharacters_written (hline : '\n' ∉ line) (hu : EndsLine u) :
    Ahead F p [] (line ++ u) (repeating commentCharacter (false, text))
      (Arrives F u fun r => r = (false, line.reverse ++ text)) := by
  induction line generalizing p text with
  | nil =>
    refine .stop ?_
    cases u with
    | nil => exact .peekEnd (.done ⟨_, rfl, rfl⟩)
    | cons c v =>
      obtain rfl : c = '\n' := hu c rfl
      exact .peek (.yes rfl (.retreat (.done ⟨_, rfl, rfl⟩)))
  | cons c line ih =>
    have hc : c ≠ '\n' := (List.ne_of_not_mem_cons hline).symm
    have hrest : '\n' ∉ line := List.not_mem_of_not_mem_cons hline
    refine .again (v := line ++ u) (R := fun g => g = (false, c :: text)) ?_ (by simp) ?_
    · exact .peek (.no hc (.accept (.done ⟨_, rfl, rfl⟩)))
    · rintro _ q rfl
      rw [List.reverse_cons, List.append_assoc, List.singleton_append]
      exact ih hrest

/-- The space behind the hash does not belong to the text of a line. -/
theorem commentLine_written (hline : '\n' ∉ line) (hu : EndsLine u) :
    Ahead F p [] (' ' :: (line ++ u)) (commentLine text)
      (Arrives F u fun r => r = line.reverse ++ text) := by
  have hspace : Ahead F p [] (' ' :: (line ++ u)) (commentCharacter (true, text))
      (Arrives F (line ++ u) fun next => ∃ g, next = .again g ∧ g = (false, text)) :=
    .peek (.no (by decide) (.accept (.done ⟨_, rfl, rfl⟩)))
  have hcharacters : Ahead F p [] (' ' :: (line ++ u)) (repeating commentCharacter (true, text))
      (Arrives F u fun r => r = (false, line.reverse ++ text)) := by
    refine .again hspace (by simp) ?_
    rintro _ q rfl
    exact commentCharacters_written hline hu
  refine .call hcharacters ?_
  rintro _ q rfl
  exact .done rfl

/-- A line that follows goes on with the comment. -/
theorem nextCommentLine_written (hline : '\n' ∉ line) (hu : EndsLine u) :
    Ahead F p [] ('\n' :: (commentedLine line ++ u)) (nextCommentLine text)
      (Arrives F u fun next => ∃ g, next = .again g ∧ g = line.reverse ++ '\n' :: text) := by
  refine .peekVisible (b := ['\n']) (List.forall_mem_singleton.mpr (by decide)) (by decide) ?_
  refine .no (by decide) (.accept (.call (commentLine_written hline hu) ?_))
  rintro _ q rfl
  exact .done ⟨_, rfl, rfl⟩

/-- An empty line ends a comment, whatever stands behind it. -/
theorem nextCommentLine_end (hu : EndsComment u) :
    Ahead F p [] u (nextCommentLine text)
      (Arrives F u fun next => ∃ g, next = .stop g ∧ g = text) := by
  rcases Reader.blank_or_visible u with hblank | ⟨b, c, v, rfl, hb, hc⟩
  · exact .peekVisibleEnd hblank (.done ⟨text, rfl, rfl⟩)
  · -- both newlines stand in front of the visible character
    have htwo : 2 ≤ b.count '\n' := by
      obtain ⟨v', hv'⟩ := hu.resolve_left (by simp)
      match b with
      | [] =>
        obtain ⟨rfl, -⟩ := List.cons.inj hv'
        cases hc
      | [_] =>
        obtain ⟨-, rfl, -⟩ := by simpa using hv'
        cases hc
      | x :: y :: b =>
        obtain ⟨rfl, rfl, -⟩ := by simpa using hv'
        simp
    refine .peekVisible hb hc (.yes (by simp [htwo]) (.retreat ?_))
    simp only [List.append_nil, List.reverse_cons, List.reverse_reverse, List.append_assoc,
      List.singleton_append]
    exact .done ⟨text, rfl, rfl⟩

/-- The lines that follow are read up to the end of the comment. -/
theorem nextCommentLines_written {rest : List (List Char)} (hrest : ∀ line ∈ rest, '\n' ∉ line)
    (hu : EndsComment u) :
    Ahead F p [] ((rest.flatMap fun line => '\n' :: commentedLine line) ++ u)
      (repeating nextCommentLine text)
      (Arrives F u fun r => r = (rest.flatMap ('\n' :: ·)).reverse ++ text) := by
  induction rest generalizing p text with
  | nil => exact .stop (nextCommentLine_end hu)
  | cons line rest ih =>
    obtain ⟨hline, hrest⟩ := List.forall_mem_cons.mp hrest
    rw [List.flatMap_cons, List.append_assoc, List.cons_append]
    refine .again (nextCommentLine_written hline (endsLine_flatMap rest hu)) ?_ ?_
    · simp only [List.length_cons, List.length_append]
      omega
    · rintro _ q rfl
      have hgathered : ((line :: rest).flatMap ('\n' :: ·)).reverse ++ text =
          (rest.flatMap ('\n' :: ·)).reverse ++ (line.reverse ++ '\n' :: text) := by
        simp
      rw [hgathered]
      exact ih hrest

/-! ## Comments -/

/-- **Comments**: a comment is read back up to the empty line behind it. -/
theorem comment_written {value : String} {w : List Char} (hu : EndsComment u)
    (hw : commented value ++ u = '#' :: w) :
    Ahead F ('#' :: p) [] w comment (Arrives F u fun c => c.text = value) := by
  obtain ⟨first, rest, hlines⟩ := List.exists_cons_of_ne_nil (lines_ne_nil value.toList)
  have hnewline : ∀ line ∈ first :: rest, '\n' ∉ line := by
    rw [← hlines]
    exact fun line => not_mem_of_mem_fields
  have htext : first ++ rest.flatMap ('\n' :: ·) = value.toList := by
    rw [← joinWith_cons, ← hlines]
    exact unlines_lines value.toList
  obtain ⟨hfirst, hrest⟩ := List.forall_mem_cons.mp hnewline
  rw [commented_lines hlines, List.cons_append, List.cons_append, List.append_assoc] at hw
  obtain ⟨-, rfl⟩ := List.cons.inj hw
  refine .placeOf (by decide) (.call (commentLine_written hfirst (endsLine_flatMap rest hu)) ?_)
  rintro _ q rfl
  refine .call (nextCommentLines_written hrest hu) ?_
  rintro _ q rfl
  refine .here (.done ?_)
  rw [List.append_nil, List.reverse_append, List.reverse_reverse, List.reverse_reverse, htext,
    String.ofList_toList]

theorem nodeStart_comment {value : String} {w : List Char} (hu : EndsComment u)
    (hw : commented value ++ u = '#' :: w) :
    Ahead F ('#' :: p) [] w (nodeStart '#')
      (Arrives F u fun r => ∃ c, r = .remark (some (.comment c)) ∧ c.text = value) :=
  .yes rfl (.call (comment_written hu hw) fun c _ hc => .done ⟨c, rfl, hc⟩)

variable [DecidableEq π] {value : Grammar π (Option (Value (Span π)))} {opened : Option π}
  {gathered : List (Entry (Span π))}

/-- A comment is an entry of its own. -/
theorem mapStep_comment (text : String) (hb : ∀ c ∈ b, isBlank c = true) (hu : EndsComment u) :
    Ahead F p [] (b ++ (commented text ++ u)) (mapStep value opened gathered)
      (Arrives F u fun next => ∃ entries, next = .again entries ∧
        ∃ e, e.commentText? = some text ∧ entries = e :: gathered) := by
  obtain ⟨w, hw⟩ : ∃ w, commented text ++ u = '#' :: w := by
    obtain ⟨first, rest, hlines⟩ := List.exists_cons_of_ne_nil (lines_ne_nil text.toList)
    exact ⟨_, by rw [commented_lines hlines]; rfl⟩
  have hentry : Ahead F ('#' :: (b.reverse ++ p)) [] w (entry value '#')
      (Arrives F u fun r => ∃ c, r = some (.comment c) ∧ c.text = text) := by
    refine .call (nodeStart_comment hu hw) ?_
    rintro _ q ⟨c, rfl, hc⟩
    exact .done ⟨c, rfl, hc⟩
  rw [hw]
  refine .readVisible hb (by decide) (.no (by decide) (.no (by decide) (.call hentry ?_)))
  rintro _ q ⟨c, rfl, hc⟩
  refine .call (trailingText_none (.inl hu.endsLine)) fun _ q _ => .done ?_
  exact ⟨_, rfl, .comment c, congrArg some hc, rfl⟩

/-- The map of a file that holds comments and nothing else. -/
theorem fileMap_comments (texts : List String) (hgroup : F.inGroup = false) :
    Ahead F p [] (commentedAll texts).toList (fileMap value)
      (Arrives F [] fun m => m.entries.map Entry.commentText? = texts.map some) := by
  have hrender : ∀ text : String, commented text ≠ [] := by
    intro text
    obtain ⟨first, rest, hlines⟩ := List.exists_cons_of_ne_nil (lines_ne_nil text.toList)
    rw [commented_lines hlines]
    exact List.cons_ne_nil _ _
  have hentries : Ahead F p [] ([] ++ (['\n', '\n'].intercalate (texts.map commented) ++ []))
      (repeating (mapStep value none) [])
      (Arrives F [] fun entries =>
        entries.reverse.map Entry.commentText? = texts.map some) := by
    apply repeating_written Entry.commentText? EndsComment texts hrender
    case hstep => exact fun text _ p b u gathered hb hu => mapStep_comment text hb hu
    -- two new lines stand between comments, as a single one would go on with the comment
    case hfollows => exact fun v => .inr ⟨v, rfl⟩
    case hsep =>
      intro p v gathered Q hrest
      exact hrest p ['\n', '\n'] (List.all_eq_true.mp (by decide))
    case hb => simp
    case hu => exact .inl rfl
    case h =>
      intro es q b hes hb
      rw [List.append_nil]
      apply Ahead.mono (.stop (mapStep_end hb))
      rintro _ rfl
      simpa using hes
  rw [List.nil_append, List.append_nil] at hentries
  rw [commentedAll, String.toList_ofList]
  exact fileMap_found (R := fun entries => entries.map Entry.commentText? = _) hgroup hentries

end Grammar

/-- **Comments**: texts that are written as comments, with an empty line between one and the next,
are read back as one comment each, and nothing is found wrong with them. -/
theorem parseText_comments (label : String) (texts : List String) (options : Options) :
    let output := parseText label (commentedAll texts) options
    output.diagnostics = [] ∧ output.fatal = none ∧
      output.map.entries.map Entry.commentText? = texts.map some := by
  obtain ⟨hdiagnostics, hfatal, m, hm, hmap⟩ :=
    parse_ahead label options (Grammar.fileMap_comments texts rfl)
  refine ⟨hdiagnostics, hfatal, ?_⟩
  rw [parseText, hmap, Map.entries_mapMarks, List.map_map]
  have hkept : Entry.commentText? ∘ Entry.mapMarks (Span.toRange label) = Entry.commentText? :=
    funext fun e => e.commentText?_mapMarks (Span.toRange label)
  rw [hkept, hm]

end Diagram
