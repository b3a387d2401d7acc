import Diagram.Proofs.Document.Container

/-!
Documents are read back from their canonical form.
-/
namespace Diagram

namespace Grammar

variable {π : Type} [DecidableEq π] {F : Frame π} {p : List Char}

/-- A value outside of all containers is read back if it is not nested too deep. -/
theorem value_readsBack (hgroup : F.inGroup = false) (hdepth : F.depth = 0) {v : Document.Value}
    (hv : v.nesting ≤ F.limit) : ReadsBack F value v := by
  intro p b u hb
  exact .limit (value_written v F F.limit hgroup hv (by omega) p b u hb)

/-- The map of a file is read back to the end of the source. -/
theorem fileMap_written (document : Document) (hgroup : F.inGroup = false) (hdepth : F.depth = 0)
    (hnesting : document.nesting ≤ F.limit) :
    Ahead F p [] (['\n'].intercalate (Document.Entry.renderAll document.entries)) (fileMap value)
      (Arrives F [] fun m => m.document? = some document) := by
  have hvalue : ∀ e ∈ document.entries, ∀ v ∈ e.value, ReadsBack F value v := by
    intro e he v hv
    apply value_readsBack hgroup hdepth
    exact Nat.le_trans (Document.Entry.nesting_le he hv) hnesting
  have hentries : Ahead F p []
      ([] ++ (['\n'].intercalate (Document.Entry.renderAll document.entries) ++ []))
      (repeating (mapStep value none) [])
      (Arrives F [] fun entries => Entry.documents? entries.reverse = some document.entries) := by
    refine entries_written document.entries hvalue (by simp) (by simp [EndsLine]) ?_
    intro new q b hnew hb
    rw [List.append_nil]
    apply Ahead.mono (.stop (mapStep_end hb))
    intro entries h
    rw [h]
    simpa using hnew
  rw [List.nil_append, List.append_nil] at hentries
  refine .mono (fileMap_found (R := fun entries => Entry.documents? entries = _) hgroup hentries) ?_
  intro m h
  exact congrArg (Option.map Document.mk) h

end Grammar

/-- **Round trip**: a document whose lists and maps are not nested too deep is read back from its
canonical form, and nothing is found wrong with that. -/
theorem parseText_render (label : String) (document : Document) (options : Options)
    (h : document.nesting ≤ options.maxDepth) :
    let output := parseText label document.render options
    output.diagnostics = [] ∧ output.fatal = none ∧ output.map.document? = some document := by
  have htext : document.render.toList =
      ['\n'].intercalate (Document.Entry.renderAll document.entries) := by
    rw [Document.render, String.toList_ofList]
  rw [parseText, htext]
  obtain ⟨hdiagnostics, hfatal, m, hdocument, hmap⟩ :=
    parse_ahead label options (Grammar.fileMap_written document rfl rfl h)
  refine ⟨hdiagnostics, hfatal, ?_⟩
  rw [hmap, Map.document?_mapMarks]
  exact hdocument

/-- A map in a list in a map, with an empty name and the characters that are escaped. -/
theorem parseText_render_nested :
    let document : Document :=
      ⟨[⟨⟨"", ["a.b"]⟩,
          some (.map [⟨⟨"$", []⟩, some (.list [.text "", .map [], .text "\\$\"\n"])⟩])⟩,
        ⟨⟨"c", []⟩, none⟩]⟩
    let output := parseText "" document.render { maxDepth := 3 }
    document.nesting ≤ 3 ∧ document.render =
      "\"\".\"a.b\": \x7b\n\"$\": [\"\"; \x7b\n\n\x7d; \"\\\\\\$\\\"\\n\"]\n\x7d\n\"c\"" ∧
      output.diagnostics = [] ∧ output.map.document? = some document := by
  intro document output
  have hnesting : document.nesting ≤ 3 := by decide
  obtain ⟨hdiagnostics, -, hdocument⟩ := parseText_render "" document { maxDepth := 3 } hnesting
  exact ⟨hnesting, by decide, hdiagnostics, hdocument⟩

end Diagram
