import Diagram.Chars.Indentation
import Mathlib.Data.List.Forall2
import Mathlib.Order.Bounds.Basic

/-!
What dedenting does to a text. It takes blanks off the start of lines and nothing else, at most
once: if every line is indented, one that was indented least starts with something visible
afterwards, and such a line keeps all of them as they are. The words of the text stay.
-/
namespace Diagram

/-! ## Lines -/

/-- Lines that stay lines are found in the text they make up. -/
theorem lines_unlines_map {cut : List Char → List Char} (h : ∀ line, cut line <:+ line)
    (cs : List Char) : lines (unlines ((lines cs).map cut)) = (lines cs).map cut := by
  refine fields_joinWith (by simpa using lines_ne_nil cs) fun f hf => ?_
  obtain ⟨line, hline, rfl⟩ := List.mem_map.mp hf
  exact fun hmem => not_mem_of_mem_fields hline ((h line).subset hmem)

/-! ## Words -/

/-- The words of a text: its longest stretches without blanks. -/
def visibleWords (cs : List Char) : List (List Char) :=
  (cs.splitOnP isBlank).filter fun word => !word.isEmpty

theorem visibleWords_append_blank {c : Char} (hc : isBlank c = true) (front behind : List Char) :
    visibleWords (front ++ c :: behind) = visibleWords front ++ visibleWords behind := by
  rw [visibleWords, List.splitOnP_append_cons front behind hc, List.filter_append, visibleWords,
    visibleWords]

theorem visibleWords_nil : visibleWords [] = [] := rfl

theorem visibleWords_blanks_append {blanks : List Char} (h : ∀ c ∈ blanks, isBlank c = true)
    (cs : List Char) : visibleWords (blanks ++ cs) = visibleWords cs := by
  induction blanks with
  | nil => rfl
  | cons c blanks ih =>
    obtain ⟨hc, hblanks⟩ := List.forall_mem_cons.mp h
    rw [List.cons_append, ← List.nil_append (c :: _), visibleWords_append_blank hc,
      visibleWords_nil, List.nil_append, ih hblanks]

theorem visibleWords_append_blanks (cs : List Char) {blanks : List Char}
    (h : ∀ c ∈ blanks, isBlank c = true) : visibleWords (cs ++ blanks) = visibleWords cs := by
  cases blanks with
  | nil => rw [List.append_nil]
  | cons c blanks =>
    obtain ⟨hc, hblanks⟩ := List.forall_mem_cons.mp h
    have hnone := visibleWords_blanks_append hblanks []
    rw [List.append_nil] at hnone
    rw [visibleWords_append_blank hc, hnone, visibleWords_nil, List.append_nil]

/-- The words of a text are those of its lines. -/
theorem visibleWords_unlines (ls : List (List Char)) :
    visibleWords (unlines ls) = ls.flatMap visibleWords := by
  rw [unlines]
  induction ls with
  | nil => rfl
  | cons line ls ih =>
    cases ls with
    | nil => rw [joinWith, List.flatMap_singleton]
    | cons next ls =>
      rw [joinWith, visibleWords_append_blank (by decide), ih, List.flatMap_cons (x := line)]

/-! ## Blanks at the end of the last line -/

theorem trimEnd_append_blanks (cs : List Char) :
    ∃ blanks, cs = trimEnd cs ++ blanks ∧ ∀ c ∈ blanks, isBlank c = true := by
  refine ⟨(cs.reverse.takeWhile isBlank).reverse, ?_, fun c hc => ?_⟩
  · rw [trimEnd, ← List.reverse_append, List.takeWhile_append_dropWhile, List.reverse_reverse]
  · exact List.all_eq_true.mp List.all_takeWhile c (List.mem_reverse.mp hc)

theorem visibleWords_trimEnd (cs : List Char) : visibleWords (trimEnd cs) = visibleWords cs := by
  obtain ⟨blanks, hcs, hblanks⟩ := trimEnd_append_blanks cs
  conv_rhs => rw [hcs, visibleWords_append_blanks _ hblanks]

theorem visibleWords_trimLastLine (cs : List Char) :
    visibleWords (trimLastLine cs) = visibleWords cs := by
  rw [trimLastLine]
  cases hcut : cutLast '\n' cs with
  | none => exact visibleWords_trimEnd cs
  | some cut =>
    obtain ⟨before, last⟩ := cut
    have hwords : visibleWords cs = visibleWords before ++ visibleWords (trimEnd last) := by
      rw [append_of_cutLast hcut, visibleWords_append_blank (by decide), visibleWords_trimEnd]
    rw [hwords]
    simp only
    split
    · next hempty => rw [List.isEmpty_iff.mp hempty, visibleWords_nil, List.append_nil]
    · exact visibleWords_append_blank (by decide) before (trimEnd last)

/-! ## Indentation -/

/-- There is something on the line. -/
def IsVisible (line : List Char) : Prop := ∃ c ∈ line, isBlank c = false

/-- The line starts with something visible. -/
def StartsVisible (line : List Char) : Prop := ∃ c ∈ line.head?, isBlank c = false

/-- What is left of a line without some of the blanks that it starts with. -/
def LosesBlanks (line rest : List Char) : Prop :=
  ∃ blanks, line = blanks ++ rest ∧ ∀ c ∈ blanks, isBlank c = true

theorem LosesBlanks.suffix {line rest : List Char} (h : LosesBlanks line rest) : rest <:+ line := by
  obtain ⟨blanks, rfl, -⟩ := h
  exact List.suffix_append blanks rest

theorem LosesBlanks.visibleWords_eq {line rest : List Char} (h : LosesBlanks line rest) :
    visibleWords rest = visibleWords line := by
  obtain ⟨blanks, rfl, hblanks⟩ := h
  exact (visibleWords_blanks_append hblanks rest).symm

theorem indentSize_pos (c : Char) : 0 < indentSize c := by
  unfold indentSize
  split
  · decide
  · exact c.utf8Size_pos

theorem isFlush_iff (line : List Char) : isFlush line = true ↔ StartsVisible line := by
  cases line with
  | nil => simp [isFlush, StartsVisible]
  | cons c cs =>
    have hsize := indentSize_pos c
    cases hc : isBlank c <;> simp [isFlush, StartsVisible, indentation, hc]
    omega

theorem not_all_isBlank_iff (line : List Char) :
    (!line.all isBlank) = true ↔ IsVisible line := by
  simp [IsVisible]

theorem dropColumns_zero (line : List Char) : dropColumns 0 line = line := by
  cases line <;> rfl

theorem dropColumns_loses (columns : Nat) (line : List Char) :
    LosesBlanks line (dropColumns columns line) := by
  induction line generalizing columns with
  | nil => exact ⟨[], rfl, by simp⟩
  | cons c cs ih =>
    rw [dropColumns]
    split
    · exact ⟨[], rfl, by simp⟩
    · split
      · next hc =>
        obtain ⟨blanks, hcs, hblanks⟩ := ih (columns - indentSize c)
        exact ⟨c :: blanks, congrArg (c :: ·) hcs, List.forall_mem_cons.mpr ⟨hc, hblanks⟩⟩
      · exact ⟨[], rfl, by simp⟩

/-- A line with something on it starts with that when it has lost its whole indentation. -/
theorem dropColumns_indentation {line : List Char} (h : IsVisible line) :
    StartsVisible (dropColumns (indentation line) line) := by
  induction line with
  | nil =>
    obtain ⟨c, hc, -⟩ := h
    cases hc
  | cons c cs ih =>
    cases hc : isBlank c with
    | false => simp [indentation, dropColumns, hc, StartsVisible]
    | true =>
      have hcs : IsVisible cs := by
        obtain ⟨x, hx, hvisible⟩ := h
        rcases List.mem_cons.mp hx with rfl | hx
        · rw [hc] at hvisible
          cases hvisible
        · exact ⟨x, hx, hvisible⟩
      have hsize := indentSize_pos c
      have hne : indentSize c + indentation cs ≠ 0 := by omega
      simp only [indentation, dropColumns, hc, if_true, hne, if_false, Nat.add_sub_cancel_left]
      exact ih hcs

/-! ### Spaces -/

/-- A space takes one column. -/
theorem indentation_spaces {line : List Char} (h : ∀ c ∈ line.takeWhile isBlank, c = ' ') :
    indentation line = (line.takeWhile isBlank).length := by
  induction line with
  | nil => rfl
  | cons c cs ih =>
    cases hc : isBlank c with
    | false => simp [indentation, hc]
    | true =>
      rw [List.takeWhile_cons_of_pos hc] at h
      obtain ⟨rfl, hcs⟩ := List.forall_mem_cons.mp h
      rw [indentation, if_pos hc, ih hcs, List.takeWhile_cons_of_pos hc,
        List.length_cons, Nat.add_comm]
      rfl

theorem dropColumns_spaces {line : List Char} {width : Nat}
    (h : ∀ c ∈ line.takeWhile isBlank, c = ' ') (hwidth : width ≤ (line.takeWhile isBlank).length) :
    line = List.replicate width ' ' ++ dropColumns width line := by
  induction width generalizing line with
  | zero => rw [dropColumns_zero, List.replicate_zero, List.nil_append]
  | succ width ih =>
    cases line with
    | nil => simp at hwidth
    | cons c cs =>
      cases hc : isBlank c with
      | false => simp [hc] at hwidth
      | true =>
        rw [List.takeWhile_cons_of_pos hc] at h hwidth
        obtain ⟨rfl, hcs⟩ := List.forall_mem_cons.mp h
        have hsize : indentSize ' ' = 1 := rfl
        rw [dropColumns, if_neg (Nat.succ_ne_zero width), if_pos hc, hsize, Nat.add_sub_cancel,
          List.replicate_succ, List.cons_append, ← ih hcs (Nat.le_of_succ_le_succ hwidth)]

/-! ## The indentation that lines share -/

/-- The columns that all lines lose: none if a line is not indented or nothing is on any of them. -/
def sharedColumns (ls : List (List Char)) : Nat :=
  if ls.any isFlush then 0 else (commonIndentation ls).getD 0

theorem map_dropColumns_zero (ls : List (List Char)) : ls.map (dropColumns 0) = ls := by
  rw [List.map_congr_left fun line _ => dropColumns_zero line, List.map_id']

theorem trimCommonIndentation_eq (cs : List Char) :
    trimCommonIndentation cs =
      unlines ((lines cs).map (dropColumns (sharedColumns (lines cs)))) := by
  have hsame : unlines ((lines cs).map (dropColumns 0)) = cs := by
    rw [map_dropColumns_zero, unlines_lines]
  rw [trimCommonIndentation, sharedColumns]
  split
  · exact hsame.symm
  · cases commonIndentation (lines cs) with
    | none => exact hsame.symm
    | some columns => rfl

theorem lines_trimCommonIndentation (cs : List Char) :
    lines (trimCommonIndentation cs) = (lines cs).map (dropColumns (sharedColumns (lines cs))) := by
  rw [trimCommonIndentation_eq]
  exact lines_unlines_map (fun line => (dropColumns_loses _ line).suffix) cs

theorem commonIndentation_eq_some_iff {ls : List (List Char)} {columns : Nat} :
    commonIndentation ls = some columns ↔
      IsLeast {n | ∃ line ∈ ls, IsVisible line ∧ indentation line = n} columns := by
  rw [commonIndentation, List.min?_eq_some_iff]
  simp only [IsLeast, lowerBounds, Set.mem_ofPred_eq, List.mem_map, List.mem_filter,
    not_all_isBlank_iff, and_assoc]

theorem commonIndentation_eq_none {ls : List (List Char)} (h : commonIndentation ls = none) :
    ¬∃ line ∈ ls, IsVisible line := by
  rintro ⟨line, hline, hvisible⟩
  have hempty := List.map_eq_nil_iff.mp (List.min?_eq_none_iff.mp h)
  have hmem : line ∈ ls.filter fun line => !line.all isBlank :=
    List.mem_filter.mpr ⟨hline, (not_all_isBlank_iff line).mpr hvisible⟩
  rw [hempty] at hmem
  cases hmem

/-- Every line that is not empty is indented. -/
def AllIndented (ls : List (List Char)) : Prop :=
  ∀ line ∈ ls, ∀ c ∈ line.head?, isBlank c = true

theorem allIndented_iff {ls : List (List Char)} : AllIndented ls ↔ ls.any isFlush = false := by
  simp only [AllIndented, List.any_eq_false, isFlush_iff, StartsVisible, not_exists, not_and,
    Bool.not_eq_false]

theorem AllIndented.sharedColumns_eq {ls : List (List Char)} {columns : Nat} (h : AllIndented ls)
    (hcommon : commonIndentation ls = some columns) : sharedColumns ls = columns := by
  rw [sharedColumns, allIndented_iff.mp h, hcommon]
  rfl

/-- Where all lines are indented, one of them is not any more when they have lost what they
share. -/
theorem AllIndented.exists_startsVisible {ls : List (List Char)} (h : AllIndented ls)
    {columns : Nat} (hcommon : commonIndentation ls = some columns) :
    ∃ line ∈ ls.map (dropColumns (sharedColumns ls)), StartsVisible line := by
  obtain ⟨⟨line, hline, hvisible, hleast⟩, -⟩ := commonIndentation_eq_some_iff.mp hcommon
  refine ⟨_, List.mem_map_of_mem hline, ?_⟩
  rw [h.sharedColumns_eq hcommon, ← hleast]
  exact dropColumns_indentation hvisible

/-- Lines that have lost what they share have nothing more to lose. -/
theorem sharedColumns_map (ls : List (List Char)) :
    sharedColumns (ls.map (dropColumns (sharedColumns ls))) = 0 := by
  by_cases hzero : sharedColumns ls = 0
  · rw [hzero, map_dropColumns_zero, hzero]
  · have hindented : AllIndented ls := by
      rw [allIndented_iff, ← Bool.not_eq_true]
      exact fun hflush => hzero (if_pos hflush)
    cases hcommon : commonIndentation ls with
    | none =>
      rw [sharedColumns, allIndented_iff.mp hindented, hcommon] at hzero
      exact absurd rfl hzero
    | some columns =>
      obtain ⟨line, hline, hstarts⟩ := hindented.exists_startsVisible hcommon
      exact if_pos (List.any_eq_true.mpr ⟨line, hline, (isFlush_iff line).mpr hstarts⟩)

theorem trimCommonIndentation_idem (cs : List Char) :
    trimCommonIndentation (trimCommonIndentation cs) = trimCommonIndentation cs := by
  rw [trimCommonIndentation_eq (trimCommonIndentation cs), lines_trimCommonIndentation,
    sharedColumns_map, map_dropColumns_zero, ← trimCommonIndentation_eq]

theorem visibleWords_trimCommonIndentation (cs : List Char) :
    visibleWords (trimCommonIndentation cs) = visibleWords cs := by
  have hwords : ∀ line,
      visibleWords (dropColumns (sharedColumns (lines cs)) line) = visibleWords line :=
    fun line => (dropColumns_loses _ line).visibleWords_eq
  rw [trimCommonIndentation_eq, visibleWords_unlines, List.flatMap_map]
  simp only [hwords]
  rw [← visibleWords_unlines, unlines_lines]

/-- What is on a line is indented by spaces alone. -/
def IndentedBySpaces (ls : List (List Char)) : Prop :=
  ∀ line ∈ ls, IsVisible line → ∀ c ∈ line.takeWhile isBlank, c = ' '

/-- Where lines are indented by spaces, each loses as many as the one that has the fewest. -/
theorem IndentedBySpaces.loses {ls : List (List Char)} {width : Nat} (h : IndentedBySpaces ls)
    (hcommon : commonIndentation ls = some width) :
    IsLeast {n | ∃ line ∈ ls, IsVisible line ∧ (line.takeWhile isBlank).length = n} width ∧
      ∀ line ∈ ls, IsVisible line → line = List.replicate width ' ' ++ dropColumns width line := by
  have hsize : ∀ n, (∃ line ∈ ls, IsVisible line ∧ indentation line = n) ↔
      ∃ line ∈ ls, IsVisible line ∧ (line.takeWhile isBlank).length = n := by
    intro n
    refine exists_congr fun line => and_congr_right fun hline => and_congr_right fun hvisible => ?_
    rw [indentation_spaces (h line hline hvisible)]
  have hleast := commonIndentation_eq_some_iff.mp hcommon
  simp only [hsize] at hleast
  exact ⟨hleast, fun line hline hvisible =>
    dropColumns_spaces (h line hline hvisible) (hleast.2 ⟨line, hline, hvisible, rfl⟩)⟩

/-- **Dedenting** takes blanks off the start of lines and nothing else, and a second time nothing at
all. Where every line is indented and one has something on it, one line starts with that afterwards;
if all are indented by spaces, each loses as many as the one that has the fewest. The words of a
text stay when it is dedented. -/
theorem dedent_takes_indentation (cs : List Char) :
    trimCommonIndentation (trimCommonIndentation cs) = trimCommonIndentation cs ∧
    List.Forall₂ LosesBlanks (lines cs) (lines (trimCommonIndentation cs)) ∧
    (AllIndented (lines cs) → (∃ line ∈ lines cs, IsVisible line) →
      (∃ line ∈ lines (trimCommonIndentation cs), StartsVisible line) ∧
      (IndentedBySpaces (lines cs) → ∃ width,
        IsLeast {n | ∃ line ∈ lines cs, IsVisible line ∧
          (line.takeWhile isBlank).length = n} width ∧
        List.Forall₂ (fun line rest => IsVisible line → line = List.replicate width ' ' ++ rest)
          (lines cs) (lines (trimCommonIndentation cs)))) ∧
    visibleWords (dedent cs) = visibleWords cs := by
  rw [dedent, visibleWords_trimCommonIndentation, visibleWords_trimLastLine,
    lines_trimCommonIndentation]
  refine ⟨trimCommonIndentation_idem cs, ?_, fun hindented hvisible => ?_, rfl⟩
  · rw [List.forall₂_map_right_iff, List.forall₂_same]
    exact fun line _ => dropColumns_loses _ line
  cases hcommon : commonIndentation (lines cs) with
  | none => exact absurd hvisible (commonIndentation_eq_none hcommon)
  | some width =>
    refine ⟨hindented.exists_startsVisible hcommon, fun hspaces => ?_⟩
    obtain ⟨hleast, hloses⟩ := hspaces.loses hcommon
    refine ⟨width, hleast, ?_⟩
    rw [hindented.sharedColumns_eq hcommon, List.forall₂_map_right_iff, List.forall₂_same]
    exact hloses

/-- Two lines that share four spaces, with a shorter blank one between them. -/
theorem dedent_takes_indentation_spaces :
    let cs := "    a b\n \n      c".toList
    AllIndented (lines cs) ∧ (∃ line ∈ lines cs, IsVisible line) ∧ IndentedBySpaces (lines cs) ∧
      (∃ width, IsLeast {n | ∃ line ∈ lines cs, IsVisible line ∧
          (line.takeWhile isBlank).length = n} width ∧
        List.Forall₂ (fun line rest => IsVisible line → line = List.replicate width ' ' ++ rest)
          (lines cs) (lines (trimCommonIndentation cs))) ∧
      dedent cs = "a b\n\n  c".toList ∧ visibleWords cs = ["a".toList, "b".toList, "c".toList] := by
  intro cs
  have hindented : AllIndented (lines cs) := allIndented_iff.mpr (by decide)
  have hvisible : ∃ line ∈ lines cs, IsVisible line :=
    ⟨_, List.mem_cons_self, 'a', by decide, by decide⟩
  have hlines : (lines cs).all (fun line => (line.takeWhile isBlank).all (· == ' ')) = true := by
    decide
  have hspaces : IndentedBySpaces (lines cs) := fun line hline _ c hc =>
    eq_of_beq (List.all_eq_true.mp (List.all_eq_true.mp hlines line hline) c hc)
  obtain ⟨-, -, hshared, hwords⟩ := dedent_takes_indentation cs
  refine ⟨hindented, hvisible, hspaces, (hshared hindented hvisible).2 hspaces, by decide, ?_⟩
  rw [← hwords]
  decide

end Diagram
