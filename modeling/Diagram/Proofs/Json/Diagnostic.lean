import Diagram.Diagnostic.Json
import Diagram.Proofs.Json.Container

/-!
Diagnostics and parse errors as JSON values, and the round trip of trees and parse errors.
-/
namespace Diagram

theorem Code.ofJson?_toJson (code : Code) : ofJson? code.toJson = some code := by
  simp [ofJson?, toJson, Json.unit?, Json.variant?, ofName?_name]

theorem Diagnostic.ofJson?_toJson {d : Diagnostic} (h : d.range.Fits) :
    ofJson? d.toJson = some d := by
  have hhelp : Json.optional? Json.text? (d.help.map Json.text) = some d.help :=
    Json.optional?_map (fun _ _ => nofun) fun _ _ => rfl
  simp [ofJson?, toJson, Json.fields?, Json.members?, Json.lookup, Json.lookup_member?,
    Code.ofJson?_toJson, Range.ofJson?_toJson h, Json.text?, hhelp]

theorem Diagnostic.fits_of_ofJson? (j : Json) : Yields (ofJson? j) fun d => d.range.Fits := by
  rw [ofJson?]
  refine .skip fun fields => ?_
  split
  · exact .skip fun code => .bind (Range.fits_of_ofJson? _) fun range hrange =>
      .skip fun message => .skip fun help => .pure hrange
  · exact .none

theorem Diagnostic.toJson_ne_null (d : Diagnostic) : d.toJson ≠ .null := nofun

namespace ParseError

/-- The positions in the diagnostics can be held. -/
structure Fits (e : ParseError) : Prop where
  fatal : ∀ d ∈ e.fatal, d.range.Fits
  diagnostics : ∀ d ∈ e.diagnostics, d.range.Fits

theorem ofJson?_toJson {e : ParseError} (h : e.Fits) : ofJson? e.toJson = some e := by
  have hfatal := Json.optional?_map (fun d _ => d.toJson_ne_null)
    (fun d hd => Diagnostic.ofJson?_toJson (h.fatal d hd))
  have hdiagnostics := mapM_map_eq_some fun d hd => Diagnostic.ofJson?_toJson (h.diagnostics d hd)
  simp [ofJson?, toJson, Json.fields?, Json.members?, Json.lookup, Json.lookup_append,
    Json.lookup_member?, hfatal, Json.array?, hdiagnostics]

theorem fits_of_ofJson? (j : Json) : Yields (ofJson? j) Fits := by
  rw [ofJson?]
  refine .skip fun fields => ?_
  split
  · exact .bind (.optional? Diagnostic.fits_of_ofJson? _) fun fatal hfatal => .skip fun elements =>
      .bind (.mapM Diagnostic.fits_of_ofJson? elements) fun diagnostics hdiagnostics =>
        .pure ⟨hfatal, hdiagnostics⟩
  · exact .none

end ParseError

/-- **Trees and parse errors survive being written as JSON values.** A tree whose positions and
edge indexes can be held and whose fractions have no zero denominator is read back from the value
it is written as, and every tree that is read from some value is one of these. Parse errors are no
different. -/
theorem json_round_trip :
    (∀ m : Map Range, m.Fits → Map.ofJson? m.toJson = some m) ∧
    (∀ j m, Map.ofJson? j = some m → Map.ofJson? m.toJson = some m) ∧
    (∀ e : ParseError, e.Fits → ParseError.ofJson? e.toJson = some e) ∧
    ∀ j e, ParseError.ofJson? j = some e → ParseError.ofJson? e.toJson = some e :=
  ⟨fun _ h => Map.ofJson?_toJson h, fun j m h => Map.ofJson?_toJson (Map.fits_of_ofJson? j m h),
    fun _ h => ParseError.ofJson?_toJson h,
    fun j e h => ParseError.ofJson?_toJson (ParseError.fits_of_ofJson? j e h)⟩

/-- A key with a number that is not in lowest terms, an empty map that is written as an array with
numerals that are not normal, and parse errors with and without diagnostics. -/
theorem json_round_trip_fraction :
    let r : Range := ⟨"a,b-c", ⟨0, 1, 1⟩, ⟨0, 2, 2⟩⟩
    let m : Map Range := ⟨r, [.key ⟨r, true, none,
      [⟨r, none, .none, some ⟨r, [.singleQuoted r "x"]⟩, .hollow⟩], some ⟨r, .nth 7⟩, none,
      some (.number r "2/4" ⟨2, 4⟩), none⟩]⟩
    let e : ParseError := ⟨none, [⟨.missingTarget, r, "connection missing destination", none⟩]⟩
    let j : Json := .array [.text "a,b-c,0:+1:01-0:2:2", .array []]
    (m.Fits ∧ Map.ofJson? m.toJson = some m) ∧
      (Map.ofJson? j = some ⟨r, []⟩ ∧ Map.ofJson? (Map.toJson ⟨r, []⟩) = some ⟨r, []⟩) ∧
      (e.Fits ∧ ParseError.ofJson? e.toJson = some e) ∧
      ParseError.ofJson? (.object [("diagnostics", .array [])]) = some ⟨none, []⟩ ∧
      ParseError.ofJson? (ParseError.toJson ⟨none, []⟩) = some ⟨none, []⟩ := by
  intro r m e j
  have hr : r.Fits := ⟨⟨by decide, by decide, by decide⟩, ⟨by decide, by decide, by decide⟩⟩
  have hpath : KeyPath.Fits ⟨r, [.singleQuoted r "x"]⟩ := ⟨hr, by simpa [Text.Fits] using hr⟩
  have hedge : Edge.Fits ⟨r, none, .none, some ⟨r, [.singleQuoted r "x"]⟩, .hollow⟩ :=
    ⟨hr, nofun, by simpa using hpath⟩
  have hindex : EdgeIndex.Fits ⟨r, .nth 7⟩ := ⟨hr, by simp [EdgeChoice.Fits, maxWord]⟩
  have hnumber : Scalar.Fits (.number r "2/4" ⟨2, 4⟩) := ⟨hr, by simp [Fraction.Fits]⟩
  have hm : m.Fits := ⟨hr, ⟨hr, nofun, by simpa using hedge, by simpa using hindex, nofun,
    by simpa using hnumber, trivial⟩, trivial⟩
  have he : e.Fits := ⟨by simp [e], by simp [e, hr]⟩
  have hj : Map.ofJson? j = some ⟨r, []⟩ := by rfl
  have he' : ParseError.ofJson? (.object [("diagnostics", .array [])]) = some ⟨none, []⟩ := by rfl
  obtain ⟨hmaps, hmaps', herrors, herrors'⟩ := json_round_trip
  exact ⟨⟨hm, hmaps m hm⟩, ⟨hj, hmaps' j _ hj⟩, ⟨he, herrors e he⟩, he', herrors' _ _ he'⟩

end Diagram
