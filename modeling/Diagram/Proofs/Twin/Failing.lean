import Diagram.Proofs.Twin.Counting

/-!
Sources that fail. The failure stands behind the text that was delivered as the end of a text does:
the tree and the diagnostics are those of that text. The failure itself is reported apart from
them, and the source is not asked for anything behind it.
-/
namespace Diagram

/-! ## A source that fails behind a text -/

section

variable (cs : List Char) (reason : String) (rest : List Delivery)

theorem delivered_failing : delivered (deliveries cs ++ .error reason :: rest) = cs := by
  induction cs with
  | nil => rfl
  | cons c cs ih => simpa [deliveries, delivered] using ih

theorem failureOf_failing :
    failureOf (deliveries cs ++ .error reason :: rest) = some reason := by
  induction cs with
  | nil => rfl
  | cons c cs ih => simpa [deliveries, failureOf] using ih

theorem behindFailure_failing :
    behindFailure (deliveries cs ++ .error reason :: rest) = rest := by
  induction cs with
  | nil => rfl
  | cons c cs ih => simpa [deliveries, behindFailure] using ih

end

theorem failureOf_eq_none_iff {source : List Delivery} :
    failureOf source = none ↔ ∀ reason, .error reason ∉ source := by
  induction source with
  | nil => simp [failureOf]
  | cons d source ih =>
    cases d with
    | error reason =>
      constructor
      · intro h
        cases h
      · intro h
        exact absurd List.mem_cons_self (h reason)
    | ok c => simp [failureOf, ih]

/-! ## Reading it -/

/-- What the source would deliver behind its failure is still there when a file has been read. -/
theorem readFile_source (counting : Counting) (source : List Delivery) (limit : Nat) :
    (readFile counting.meter source limit).2.reader.source = behindFailure source := by
  have hstart := State.ofSource_at counting.meter_lawful source limit
  obtain ⟨-, hend⟩ := Grammar.fileMap_finishes rfl (Grammar.value_reads rfl) [] _ hstart
  exact hend.stands.reader.source_of_ended hend.ended

/-- A failure is reported if there is one. -/
theorem parse_fatal_eq_none_iff (label : String) (source : List Delivery) (options : Options) :
    (parse label source options).fatal = none ↔ ∀ reason, .error reason ∉ source := by
  rw [parse_fatal, Option.map_eq_none_iff]
  exact failureOf_eq_none_iff

/-- **Failing sources**: a source that fails behind a text gives the tree and the diagnostics of the
text. The failure is reported behind the text, what follows it stays with the source, and nothing is
reported of a source that does not fail. -/
theorem parse_failing (label text reason : String) (rest : List Delivery) (options : Options) :
    let source := deliveries text.toList ++ .error reason :: rest
    let failing := parse label source options
    let whole := parseText label text options
    let stop := Position.after options.counting text.toList
    failing.map = whole.map ∧
    failing.diagnostics = whole.diagnostics ∧
    (∃ d, failing.fatal = some d ∧ d.code.name = "E090" ∧ d.message = "io error: " ++ reason ∧
      d.range = ⟨label, stop, stop⟩) ∧
    (readFile options.counting.meter source options.maxDepth).2.reader.source = rest ∧
    whole.fatal = none ∧
    ∀ other, (parse label other options).fatal = none ↔ ∀ reason, .error reason ∉ other := by
  intro source failing whole stop
  have hdelivered : delivered source = delivered (deliveries text.toList) := by
    rw [delivered_failing, delivered_deliveries]
  refine ⟨?map, ?diagnostics, ?failure, ?unasked, ?noFailure,
    fun other => parse_fatal_eq_none_iff label other options⟩
  case map =>
    show (parse label source options).map = (parse label (deliveries text.toList) options).map
    rw [parse_map_of_delivered label options hdelivered, parse_map_eq]
  case diagnostics =>
    show (parse label source options).diagnostics =
      (parse label (deliveries text.toList) options).diagnostics
    rw [parse_diagnostics_of_delivered label options hdelivered, parse_diagnostics_eq]
  case failure =>
    refine ⟨.of (.sourceFailure reason) ⟨label, stop, stop⟩, ?_, rfl, rfl, rfl⟩
    show (parse label source options).fatal = _
    rw [parse_fatal, failureOf_failing, delivered_failing, Option.map_some, rangeBetween,
      List.take_length]
  case unasked =>
    rw [readFile_source, behindFailure_failing]
  case noFailure =>
    apply (parse_fatal_eq_none_iff label (deliveries text.toList) options).mpr
    intro reason hmem
    simp [deliveries] at hmem

end Diagram
