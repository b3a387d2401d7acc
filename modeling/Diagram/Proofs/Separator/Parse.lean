import Diagram.Proofs.Separator.File
import Diagram.Proofs.Twin.Append

/-!
Semicolons and new lines between two texts. They separate alike, except in two places: behind an
unquoted text, a parenthesis that closes an edge group is taken for text if a semicolon comes next,
and a dollar sign in front of a semicolon is taken for the start of a substitution.
-/
namespace Diagram

/-- The same entry without marks. -/
def Entry.bare {ρ : Type} : Entry ρ → Entry Unit :=
  Entry.mapMarks fun _ => ()

theorem Entry.bare_mapMarks {ρ σ : Type} (f : ρ → σ) (e : Entry ρ) : (e.mapMarks f).bare = e.bare :=
  Entry.mapMarks_mapMarks f _ e

theorem map_bare_mapMarks {ρ σ : Type} (f : ρ → σ) (entries : List (Entry ρ)) :
    (entries.map (Entry.mapMarks f)).map Entry.bare = entries.map Entry.bare := by
  rw [List.map_map]
  exact List.map_congr_left fun e _ => e.bare_mapMarks f

section

variable {label : String} {options : Options} {a b : List Char}

/-- What is read of two texts in two lines is what is read of each. -/
theorem parse_lines (ha : (parse label (deliveries a) options).diagnostics = [])
    (hcomment : ∀ c, (parse label (deliveries a) options).map.entries.getLast? ≠ some (.comment c))
    (hlines : (parse label (deliveries (a ++ '\n' :: b)) options).diagnostics = []) :
    let front := Grammar.fileEntries .index (deliveries a) options.maxDepth
    let behind := Grammar.fileEntries .index (deliveries b) options.maxDepth
    behind.2.problems = [] ∧
      (parse label (deliveries (a ++ '\n' :: b)) options).map.entries.map Entry.bare =
        (behind.1.map Entry.bare ++ front.1.map Entry.bare).reverse := by
  intro front behind
  obtain ⟨hentries, q, htwin⟩ := parse_append_twin label options a b ha (.inl hcomment)
  have hproblems := htwin.sameProblems rfl
  refine ⟨?_, ?_⟩
  · rw [parse_diagnostics, hproblems] at hlines
    simpa using hlines
  · rw [parse_entries, hentries, map_bare_mapMarks, List.map_reverse]
    simp only [Grammar.mapEntries, List.append_nil, List.map_append, map_bare_mapMarks]
    rfl

variable (label) in
/-- A problem of the run in indexes is reported. -/
theorem parse_reports {source : List Delivery} {x : Problem Nat}
    (hx : x ∈ (Grammar.fileEntries .index source options.maxDepth).2.problems) :
    ∃ d ∈ (parse label source options).diagnostics, d.code = x.cause.code := by
  rw [parse_diagnostics_eq, Grammar.readFile_eq]
  exact ⟨_, List.mem_map_of_mem (List.mem_reverse.mpr hx), rfl⟩

end

/-- **Separators**: a semicolon separates two texts as a new line does. If nothing is wrong with
`a`, or with `a` and `b` in two lines, and `a` does not end in a comment, then nothing is wrong with
both with a semicolon between them and they hold the same nodes, unless the last visible character
of `a` is a closing parenthesis and an edge group is reported as unterminated, or it is a dollar
sign and a substitution is reported as missing its brace. -/
theorem parseText_semicolon (label : String) (options : Options) (a b : String)
    (ha : (parseText label a options).diagnostics = [])
    (hlines : (parseText label (a ++ "\n" ++ b) options).diagnostics = [])
    (hcomment : ∀ c, (parseText label a options).map.entries.getLast? ≠ some (.comment c)) :
    let joined := parseText label (a ++ ";" ++ b) options
    let lines := parseText label (a ++ "\n" ++ b) options
    (joined.diagnostics = [] ∧
        joined.map.entries.map Entry.bare = lines.map.entries.map Entry.bare) ∨
      (firstVisible a.toList.reverse = some ')' ∧
        ∃ d ∈ joined.diagnostics, d.code = .unterminatedEdgeGroup) ∨
      firstVisible a.toList.reverse = some '$' ∧
        ∃ d ∈ joined.diagnostics, d.code = .missingBrace := by
  have hline : (a ++ "\n" ++ b).toList = a.toList ++ '\n' :: b.toList := by simp
  have hsemicolon : (a ++ ";" ++ b).toList = a.toList ++ ';' :: b.toList := by simp
  simp only [parseText, hline] at hlines ha hcomment ⊢
  rw [hsemicolon]
  obtain ⟨hbehind, hentries⟩ := parse_lines ha hcomment hlines
  have hlast : ∀ c rest, (Grammar.fileEntries .index (deliveries a.toList) options.maxDepth).1 ≠
      .comment c :: rest := by
    intro c rest hlast
    rw [parse_entries_eq, hlast] at hcomment
    let place := Span.between label options.counting (delivered (deliveries a.toList))
    exact hcomment (c.mapMarks place) (by simp [Entry.mapMarks, place])
  rcases Grammar.fileEntries_semicolon a.toList b.toList options.maxDepth (problems_of_clean ha)
    hbehind hlast with ⟨x, hx, hslip⟩ | ⟨hproblems, hsame⟩
  · obtain ⟨d, hd, hcode⟩ := parse_reports label hx
    rw [Seam.Slip, Seam.EndsIn, Seam.EndsIn, Seam.ofTexts_first] at hslip
    rcases hslip with ⟨hcause, hends⟩ | ⟨hcause, hends⟩
    · exact .inr (.inl ⟨hends, d, hd, by rw [hcode, hcause]; rfl⟩)
    · exact .inr (.inr ⟨hends, d, hd, by rw [hcode, hcause]; rfl⟩)
  · refine .inl ⟨?_, ?_⟩
    · rw [parse_diagnostics_eq, Grammar.readFile_eq]
      simp [hproblems]
    · have hbare := congrArg (List.map Entry.bare) hsame
      simp only [List.map_append, map_bare_mapMarks] at hbare
      rw [hentries, parse_entries_eq, map_bare_mapMarks, List.map_reverse, hbare]

example : (parseText "" "a: $" {}).diagnostics = [] ∧
    (parseText "" "a: $;b" {}).diagnostics.map Diagnostic.code = [.missingBrace] := by
  decide +kernel

theorem getLast?_ne_comment {ρ : Type} {entries : List (Entry ρ)}
    (h : entries.getLast?.map Entry.typeName = some "map key") (c : Comment ρ) :
    entries.getLast? ≠ some (.comment c) := by
  intro hc
  rw [hc] at h
  simp [Entry.typeName] at h

/-- A key with a value, and another key. -/
theorem parseText_semicolon_keys :
    let a := "x -> y: \x7b shape: circle \x7d"
    let b := "z"
    (parseText "" a {}).diagnostics = [] ∧ (parseText "" (a ++ "\n" ++ b) {}).diagnostics = [] ∧
      (∀ c, (parseText "" a {}).map.entries.getLast? ≠ some (.comment c)) ∧
      (parseText "" (a ++ ";" ++ b) {}).diagnostics = [] := by
  intro a b
  have ha : (parseText "" a {}).diagnostics = [] := by decide +kernel
  have hlines : (parseText "" (a ++ "\n" ++ b) {}).diagnostics = [] := by decide +kernel
  have hcomment : ∀ c, (parseText "" a {}).map.entries.getLast? ≠ some (.comment c) :=
    getLast?_ne_comment (by decide +kernel)
  refine ⟨ha, hlines, hcomment, ?_⟩
  rcases parseText_semicolon "" {} a b ha hlines hcomment with ⟨hclean, -⟩ | ⟨hends, -⟩ | ⟨hends, -⟩
  · exact hclean
  · exact absurd hends (by decide +kernel)
  · exact absurd hends (by decide +kernel)

/-- In front of a semicolon, the parenthesis that closes a group behind an unquoted text belongs to
that text; in front of a new line, it closes the group. -/
theorem parseText_semicolon_group :
    let a := "(a -> b)"
    let b := "c"
    (parseText "" a {}).diagnostics = [] ∧ (parseText "" (a ++ "\n" ++ b) {}).diagnostics = [] ∧
      (∀ c, (parseText "" a {}).map.entries.getLast? ≠ some (.comment c)) ∧
      (parseText "" (a ++ ";" ++ b) {}).diagnostics ≠ [] := by
  intro a b
  exact ⟨by decide +kernel, by decide +kernel, getLast?_ne_comment (by decide +kernel),
    by decide +kernel⟩

end Diagram
