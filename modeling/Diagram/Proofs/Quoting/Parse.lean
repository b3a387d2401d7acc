import Diagram.Proofs.Marks
import Diagram.Proofs.Normal.Atoms
import Diagram.Proofs.Quoting.Number
import Diagram.Proofs.Quoting.Text

/-!
A text in the form that `Text.ofString` chooses for it is read back as that text: as a segment of a
key path always, and as a value unless it is taken for a boolean or a number, of which only the
choice for null takes care.
-/
namespace Diagram

variable {ρ σ : Type}

theorem Text.form_mapMarks (f : ρ → σ) (t : Text ρ) : (t.mapMarks f).form = t.form := by
  cases t <;> rfl

theorem Text.content_of_plain? {t : Text ρ} {s : String} (h : t.plain? = some s) :
    t.content = s := by
  unfold Text.plain? at h
  split at h
  · exact Option.some.inj h
  · exact Option.some.inj h
  · exact Option.some.inj h
  · cases h

/-- What is chosen for a text can be written. -/
theorem Chosen.exists_written {inKey : Bool} {s : String} {chosen : Text ρ}
    (h : Chosen inKey s chosen) : ∃ written, chosen.written? inKey = some written := by
  cases h with
  | unquoted mark _ => exact ⟨_, rfl⟩
  | doubleQuoted mark => exact ⟨_, rfl⟩
  | singleQuoted mark _ => exact ⟨_, rfl⟩

theorem Text.exists_written (inKey : Bool) (s : String) :
    ∃ written, (Text.ofString inKey Range.nowhere s).written? inKey = some written :=
  (Text.ofString_chosen inKey Range.nowhere s).exists_written

/-! ## Key paths -/

/-- Texts that are read back have the contents and the forms that they should. -/
theorem readBack_names {form : String → Form} {names : List String} {ts : List (Text (Span σ))}
    (h : List.Forall₂ (fun n => Grammar.ReadBack n (form n)) names ts) :
    ts.map Text.content = names ∧ ts.map Text.form = names.map form := by
  induction h with
  | nil => exact ⟨rfl, rfl⟩
  | cons ht _ ih => simp [ht.1, Text.content_of_plain? ht.2, ih]

/-- **Quoting of key segments**: names that are joined with points, each in the form that is chosen
for it, are read back as a path with these names in these forms. -/
theorem parsePath_written (names : List String) (hne : names ≠ []) :
    ∃ parts path,
      names.mapM (fun n => (Text.ofString true Range.nowhere n).written? true) = some parts ∧
        parsePath (String.ofList (['.'].intercalate parts)) = .ok path ∧ path.names = names ∧
          path.segments.map Text.form =
            names.map fun n => (Text.ofString true Range.nowhere n).form := by
  choose written hwritten using Text.exists_written true
  have hparts : names.mapM (fun n => (Text.ofString true Range.nowhere n).written? true) =
      some (names.map written) := by
    simp only [hwritten]
    exact List.mapM_pure
  obtain ⟨first, rest, rfl⟩ := List.exists_cons_of_ne_nil hne
  have hpath := Grammar.path_found (p := []) (u := [])
    (F := .ofText {} (['.'].intercalate ((first :: rest).map written))) first rest
    (.inl (by simp [EndsLine])) fun n _ =>
      Grammar.segment_readBack rfl (Text.ofString_chosen true Range.nowhere n) (hwritten n)
  rw [List.append_nil, ← String.toList_ofList (l := ['.'].intercalate _)] at hpath
  obtain ⟨k, hk, hread⟩ := parsePart_ahead (.emptyPath _) hpath
  obtain ⟨hnames, hforms⟩ := readBack_names hk
  refine ⟨_, k.mapMarks (Span.toRange ""), hparts, ?_, ?_, ?_⟩
  · rw [parsePath, hread]
    rfl
  · simpa [KeyPath.names, KeyPath.mapMarks, Text.mapMarksAll_eq, Function.comp_def,
      Text.content_mapMarks] using hnames
  · simpa [KeyPath.mapMarks, Text.mapMarksAll_eq, Function.comp_def, Text.form_mapMarks]
      using hforms

/-- A key with every kind of quotes in its path. -/
theorem parsePath_written_quotes :
    let names := ["a-b", "", "x.y", "\"it's\"", "\n\""]
    ∃ parts path,
      names.mapM (fun n => (Text.ofString true Range.nowhere n).written? true) = some parts ∧
        String.ofList (['.'].intercalate parts) = "a-b.\"\".\"x.y\".'\"it''s\"'.\"\\n\\\"\"" ∧
          parsePath (String.ofList (['.'].intercalate parts)) = .ok path ∧ path.names = names := by
  intro names
  obtain ⟨parts, path, hparts, hpath, hnames, -⟩ := parsePath_written names (by decide)
  have hwritten : names.mapM (fun n => (Text.ofString true Range.nowhere n).written? true) =
      some ["a-b".toList, "\"\"".toList, "\"x.y\"".toList, "'\"it''s\"'".toList,
        "\"\\n\\\"\"".toList] := by
    decide +kernel
  obtain rfl := Option.some.inj (hwritten.symm.trans hparts)
  exact ⟨_, path, hparts, by decide +kernel, hpath, hnames⟩

/-! ## Values -/

/-- A text without substitutions stays a text, unless it has no quotes and reads as another
scalar. -/
theorem Grammar.scalarOf_plain {t : Text ρ} {s : String} (h : t.plain? = some s) :
    scalarOf t = .text t ↔ (t.form = .unquoted → readsAsScalar s = false) := by
  cases t with
  | unquoted range pieces =>
    match pieces, h with
    | [], h =>
      obtain rfl : "" = s := Option.some.inj h
      exact ⟨fun _ _ => by decide, fun _ => rfl⟩
    | [.literal text raw], h =>
      obtain rfl : text = s := Option.some.inj h
      simp only [scalarOf, readsAsScalar, Text.form]
      split_ifs with hnull htrue hfalse
      · simp [hnull]
      · simp [htrue]
      · simp [hfalse]
      · cases hnumber : numberValue? text.toList <;> simp [hnull, htrue, hfalse]
  | doubleQuoted _ _ | singleQuoted _ _ | block _ _ _ _ => simp [scalarOf, Text.form]

/-- Nothing is trimmed where no character is blank. -/
theorem trim_of_visible {cs : List Char} (h : ∀ c ∈ cs, isBlank c = false) : trim cs = cs := by
  have hdrop : ∀ xs : List Char, (∀ c ∈ xs, isBlank c = false) → xs.dropWhile isBlank = xs := by
    intro xs hxs
    cases xs with
    | nil => rfl
    | cons x xs => rw [List.dropWhile_cons_of_neg (by simp [hxs x List.mem_cons_self])]
  have hend : cs.reverse.dropWhile isBlank = cs.reverse :=
    hdrop cs.reverse fun c hc => h c (List.mem_reverse.mp hc)
  rw [trim, trimEnd, hdrop cs h, hend, List.reverse_reverse]

/-- What is taken for a boolean or a number, but not for null, is written without quotes. -/
theorem bare_of_scalar {s : String} (hnull : Grammar.isKeyword "null" s = false)
    (h : readsAsScalar s = true) : Bare false s := by
  have hnumeric := readsAsScalar_numeric h
  refine ⟨?_, ?_, trim_of_visible fun c hc => isNumeric_visible (hnumeric c hc)⟩
  · have hspecials : s.toList.any (· ∈ valueSpecials) = false := by
      simpa using fun c hc => isNumeric_not_special (hnumeric c hc)
    have hword : (s.toList.map Char.toLower == ['n', 'u', 'l', 'l']) = false := hnull
    rw [needsQuotes, if_neg Bool.false_ne_true, valueNeedsQuotes, hspecials, hword]
    rfl
  · intro hnil
    obtain rfl : s = "" := String.toList_eq_nil_iff.mp hnil
    revert h
    decide

/-- The choice of quotes takes care of null. -/
theorem Bare.not_null {s : String} (h : Bare false s) : Grammar.isKeyword "null" s = false := by
  have hplain := h.plain
  rw [needsQuotes, if_neg Bool.false_ne_true, valueNeedsQuotes, Bool.or_eq_false_iff] at hplain
  exact hplain.1

/-- **Quoting of values**: a text in the form that is chosen for it is read back as a text in this
form, but for a boolean or a number, which is written without quotes and read as such. -/
theorem parseValue_written (s : String) :
    ∃ written t,
      (Text.ofString false Range.nowhere s).written? false = some written ∧
        parseValue (String.ofList written) = .ok (.scalar (Grammar.scalarOf t)) ∧
          t.form = (Text.ofString false Range.nowhere s).form ∧ t.content = s ∧
            (Grammar.scalarOf t = .text t ↔
              Grammar.isKeyword "null" s = true ∨ readsAsScalar s = false) := by
  obtain ⟨written, hwritten⟩ := Text.exists_written false s
  have hchosen := Text.ofString_chosen false Range.nowhere s
  have hvalue := Grammar.value_readBack (p := []) (F := .ofText {} written) rfl hchosen hwritten
  rw [← String.toList_ofList (l := written)] at hvalue
  obtain ⟨v, ⟨t, ⟨hform, hplain⟩, rfl⟩, hread⟩ := parsePart_ahead .emptyValue hvalue
  have hform' : (t.mapMarks (Span.toRange "")).form = (Text.ofString false Range.nowhere s).form :=
    (Text.form_mapMarks _ t).trans hform
  have hplain' : (t.mapMarks (Span.toRange "")).plain? = some s :=
    (Text.plain?_mapMarks _ t).trans hplain
  have hcontent := Text.content_of_plain? hplain'
  refine ⟨written, t.mapMarks (Span.toRange ""), hwritten, ?_, hform', hcontent, ?_⟩
  · rw [parseValue, hread, Grammar.scalarOf_mapMarks]
    rfl
  · rw [Grammar.scalarOf_plain hplain', hform']
    constructor
    · intro hquoted
      -- what reads as a boolean or a number would have been written without quotes
      by_contra hother
      rw [not_or, Bool.not_eq_true, Bool.not_eq_false] at hother
      have hfree := (bare_of_scalar hother.1 hother.2).form_ofString Range.nowhere
      rw [hquoted hfree] at hother
      exact absurd hother.2 Bool.false_ne_true
    · rintro (hnull | hother) hfree
      · have hword := (hchosen.bare hfree).not_null
        rw [hnull] at hword
        cases hword
      · exact hother

/-- The text `true` is written without quotes, and read back as a boolean. -/
theorem parseValue_misreads_true :
    ¬∃ written text, (Text.ofString false Range.nowhere "true").written? false = some written ∧
      parseValue (String.ofList written) = .ok (.scalar (.text text)) ∧
        text.form = (Text.ofString false Range.nowhere "true").form ∧ text.content = "true" := by
  rintro ⟨written, text, hwritten, hread, hform, -⟩
  have hunquoted : (Text.ofString false Range.nowhere "true").written? false =
      some "true".toList := by
    decide
  obtain rfl : "true".toList = written := Option.some.inj (hunquoted.symm.trans hwritten)
  have hboolean : (parseValue (String.ofList "true".toList)).toOption.map Value.typeName =
      some "boolean" := by
    decide +kernel
  rw [hread] at hboolean
  cases text with
  | block _ _ _ _ => cases hform
  | unquoted _ _ | doubleQuoted _ _ | singleQuoted _ _ =>
    simp [Except.toOption, Value.typeName, Scalar.typeName, Text.typeName] at hboolean

end Diagram
