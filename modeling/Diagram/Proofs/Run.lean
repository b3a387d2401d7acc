import Diagram.CommandLine.Run
import Diagram.Proofs.Sound.Parse

/-!
Runs over many inputs. A run goes through the inputs in their order: as long as they can be read and
nothing is wrong in them it writes their trees, and it ends with what is wrong with the first other
one. The tree of an input with diagnostics is still written; one that cannot be read has none. Main
statement: `run_stops_at_first_failure`.
-/
namespace Diagram

/-- The input can be read as text, and nothing is wrong in the text. -/
def IsSound (surroundings : Surroundings) (options : Options) (path : String) : Prop :=
  ∃ text, (surroundings.file path).text = .ok text ∧ (parseText path text options).diagnostics = []

/-- The failure that an input gives rise to. -/
inductive FailsWith (surroundings : Surroundings) (options : Options) (path : String) :
    Failure → Prop
  | unreadable {error : FileError} :
      (surroundings.file path).text = .error error →
      FailsWith surroundings options path (.file error)
  | unsound {text : String} :
      (surroundings.file path).text = .ok text → (parseText path text options).diagnostics ≠ [] →
      FailsWith surroundings options path
        (.diagram ⟨none, (parseText path text options).diagnostics⟩ text options.utf16)

/-- The written form of the tree of an input, if it can be read. -/
def writtenTree (surroundings : Surroundings) (options : Options) (path : String) : String :=
  match (surroundings.file path).text with
  | .ok text => (parseText path text options).map.written
  | .error _ => ""

/-- What a run writes for inputs that can be read: their trees one after the other, if it writes any
trees. -/
def writtenTrees (surroundings : Surroundings) (options : Options) (json : Bool)
    (paths : List String) : String :=
  if json then String.join (paths.map (writtenTree surroundings options)) else ""

/-- How a run ends at an input that fails, behind others whose trees are written. The tree of the
input itself is written as well, unless it cannot be read. -/
def FailsAt (surroundings : Surroundings) (options : Options) (json : Bool) (before : List String)
    (path : String) (outcome : Outcome) : Prop :=
  (∃ error, (surroundings.file path).text = .error error ∧
    outcome.failure = some (.file error) ∧
    outcome.output = writtenTrees surroundings options json before) ∨
  ∃ text, (surroundings.file path).text = .ok text ∧
    (parseText path text options).diagnostics ≠ [] ∧
    outcome.failure =
      some (.diagram ⟨none, (parseText path text options).diagnostics⟩ text options.utf16) ∧
    outcome.output = writtenTrees surroundings options json (before ++ [path])

section

variable {surroundings : Surroundings} {options : Options} {json : Bool} {path : String}

@[simp] theorem writtenTrees_nil : writtenTrees surroundings options json [] = "" := by
  cases json <;> rfl

theorem writtenTrees_append (before paths : List String) :
    writtenTrees surroundings options json (before ++ paths) =
      writtenTrees surroundings options json before ++
        writtenTrees surroundings options json paths := by
  cases json <;> simp [writtenTrees]

theorem writtenTrees_of_text {text : String} (h : (surroundings.file path).text = .ok text) :
    writtenTrees surroundings options json [path] =
      if json then (parseText path text options).map.written else "" := by
  simp [writtenTrees, writtenTree, h]

/-! ## One input -/

theorem parseText_error? (label text : String) (options : Options) :
    (parseText label text options).error? =
      if (parseText label text options).diagnostics = [] then none
      else some ⟨none, (parseText label text options).diagnostics⟩ := by
  have hfatal : (parseText label text options).fatal = none := by
    rw [parseText, parse_fatal, failureOf_deliveries, Option.map_none]
  by_cases hdiagnostics : (parseText label text options).diagnostics = [] <;>
    simp [Output.error?, hfatal, hdiagnostics]

theorem isSound_or_failsWith (surroundings : Surroundings) (options : Options) (path : String) :
    IsSound surroundings options path ∨ ∃ failure, FailsWith surroundings options path failure := by
  cases htext : (surroundings.file path).text with
  | error error => exact .inr ⟨_, .unreadable htext⟩
  | ok text =>
    by_cases hdiagnostics : (parseText path text options).diagnostics = []
    · exact .inl ⟨text, htext, hdiagnostics⟩
    · exact .inr ⟨_, .unsound htext hdiagnostics⟩

theorem runInputs_of_isSound (json : Bool) (h : IsSound surroundings options path)
    (rest : List String) :
    (runInputs surroundings options json (path :: rest)).failure =
        (runInputs surroundings options json rest).failure ∧
      (runInputs surroundings options json (path :: rest)).output =
        writtenTrees surroundings options json [path] ++
          (runInputs surroundings options json rest).output := by
  obtain ⟨text, htext, hdiagnostics⟩ := h
  have herror : (parse path (deliveries text.toList) options).error? = none := by
    rw [← parseText, parseText_error?, if_pos hdiagnostics]
  rw [writtenTrees_of_text htext]
  simp [runInputs, htext, herror, Outcome.logging, Outcome.writing, parseText]

theorem runInputs_of_unreadable (options : Options) (json : Bool) {error : FileError}
    (h : (surroundings.file path).text = .error error) (rest : List String) :
    (runInputs surroundings options json (path :: rest)).failure = some (.file error) ∧
      (runInputs surroundings options json (path :: rest)).output = "" := by
  simp [runInputs, h, Outcome.logging, Outcome.failed]

theorem runInputs_of_unsound (json : Bool) {text : String}
    (htext : (surroundings.file path).text = .ok text)
    (hdiagnostics : (parseText path text options).diagnostics ≠ []) (rest : List String) :
    (runInputs surroundings options json (path :: rest)).failure =
        some (.diagram ⟨none, (parseText path text options).diagnostics⟩ text options.utf16) ∧
      (runInputs surroundings options json (path :: rest)).output =
        writtenTrees surroundings options json [path] := by
  have herror := parseText_error? path text options
  rw [if_neg hdiagnostics, parseText] at herror
  rw [writtenTrees_of_text htext]
  simp [runInputs, htext, herror, Outcome.logging, Outcome.writing, Outcome.failed, parseText]

/-! ## Many inputs -/

/-- The run passes over what is sound, and only writes its trees. -/
theorem runInputs_append (json : Bool) {before : List String}
    (h : ∀ path ∈ before, IsSound surroundings options path) (rest : List String) :
    (runInputs surroundings options json (before ++ rest)).failure =
        (runInputs surroundings options json rest).failure ∧
      (runInputs surroundings options json (before ++ rest)).output =
        writtenTrees surroundings options json before ++
          (runInputs surroundings options json rest).output := by
  induction before with
  | nil => simp
  | cons path before ih =>
    obtain ⟨hpath, hbefore⟩ := List.forall_mem_cons.mp h
    obtain ⟨hfailure, houtput⟩ :=
      runInputs_of_isSound json hpath (before ++ rest)
    obtain ⟨ihfailure, ihoutput⟩ := ih hbefore
    refine ⟨hfailure.trans ihfailure, houtput.trans ?_⟩
    rw [ihoutput, ← String.append_assoc, ← writtenTrees_append, List.singleton_append]

theorem runInputs_failsAt {before : List String} {failure : Failure}
    (hbefore : ∀ p ∈ before, IsSound surroundings options p)
    (h : FailsWith surroundings options path failure) (rest : List String) :
    FailsAt surroundings options json before path
      (runInputs surroundings options json (before ++ path :: rest)) := by
  obtain ⟨hfailure, houtput⟩ := runInputs_append json hbefore (path :: rest)
  cases h with
  | unreadable herror =>
    obtain ⟨hpath, hnothing⟩ := runInputs_of_unreadable options json herror rest
    refine .inl ⟨_, herror, hfailure.trans hpath, ?_⟩
    rw [houtput, hnothing, String.append_empty]
  | unsound htext hdiagnostics =>
    obtain ⟨hpath, htree⟩ := runInputs_of_unsound json htext hdiagnostics rest
    refine .inr ⟨_, htext, hdiagnostics, hfailure.trans hpath, ?_⟩
    rw [houtput, htree, writtenTrees_append]

theorem FailsAt.not_isSound {before : List String} {outcome : Outcome}
    (h : FailsAt surroundings options json before path outcome) :
    ¬IsSound surroundings options path := by
  rintro ⟨text, htext, hdiagnostics⟩
  rcases h with ⟨error, herror, -⟩ | ⟨text', htext', hne, -⟩
  · cases htext.symm.trans herror
  · cases htext.symm.trans htext'
    exact hne hdiagnostics

theorem FailsAt.failure_ne_none {before : List String} {outcome : Outcome}
    (h : FailsAt surroundings options json before path outcome) : outcome.failure ≠ none := by
  rcases h with ⟨error, -, hfailure, -⟩ | ⟨text, -, -, hfailure, -⟩ <;> simp [hfailure]

/-- Either all inputs are sound or there is a first one that fails. -/
theorem sound_or_first_failure (surroundings : Surroundings) (options : Options)
    (inputs : List String) :
    (∀ path ∈ inputs, IsSound surroundings options path) ∨
      ∃ before path rest failure, inputs = before ++ path :: rest ∧
        (∀ p ∈ before, IsSound surroundings options p) ∧
        FailsWith surroundings options path failure := by
  induction inputs with
  | nil => exact .inl (by simp)
  | cons path inputs ih =>
    rcases isSound_or_failsWith surroundings options path with hpath | ⟨failure, hfails⟩
    · rcases ih with hall | ⟨before, p, rest, failure, rfl, hbefore, hfails⟩
      · exact .inl (List.forall_mem_cons.mpr ⟨hpath, hall⟩)
      · exact .inr ⟨path :: before, p, rest, failure, rfl,
          List.forall_mem_cons.mpr ⟨hpath, hbefore⟩, hfails⟩
    · exact .inr ⟨[], path, inputs, failure, rfl, by simp, hfails⟩

/-- A run up to an input that fails depends on nothing that comes behind it. -/
theorem runInputs_congr {other : Surroundings} {before : List String} {failure : Failure}
    (h : FailsWith surroundings options path failure)
    (hagree : ∀ p ∈ before ++ [path], other.file p = surroundings.file p)
    (rest rest' : List String) :
    runInputs other options json (before ++ path :: rest') =
      runInputs surroundings options json (before ++ path :: rest) := by
  induction before with
  | nil =>
    have hpath : other.file path = surroundings.file path := hagree path (by simp)
    cases h with
    | unreadable herror => simp [runInputs, hpath, herror]
    | unsound htext hdiagnostics =>
      next text =>
      have herror := parseText_error? path text options
      rw [if_neg hdiagnostics, parseText] at herror
      simp [runInputs, hpath, htext, herror]
  | cons p before ih =>
    have hp : other.file p = surroundings.file p := hagree p (by simp)
    have hrest := ih fun p' hp' => hagree p' (List.mem_cons_of_mem p hp')
    simp only [List.cons_append, runInputs, hp, hrest]

/-- With settings, the run is the run over the inputs behind the records of loading them. -/
theorem run_of_settings {arguments : Arguments} {settings : Options}
    (h : (loadSettings surroundings arguments.config).2 = .ok settings) :
    run surroundings arguments =
      .logging (loadSettings surroundings arguments.config).1
        (runInputs surroundings (arguments.override settings) arguments.json arguments.inputs) := by
  simp only [run, h]

/-- **Runs over many inputs**: a run with settings ends well if and only if every input can be read
and has no diagnostics, and has then written the trees of all of them. Otherwise it ends at the
first other input, and nothing that comes behind that input has an influence on the run. -/
theorem run_stops_at_first_failure {surroundings : Surroundings} {arguments : Arguments}
    {settings : Options} (h : (loadSettings surroundings arguments.config).2 = .ok settings) :
    let options := arguments.override settings
    let outcome := run surroundings arguments
    (outcome.failure = none ↔ ∀ path ∈ arguments.inputs, IsSound surroundings options path) ∧
    (outcome.failure = none →
      outcome.output = writtenTrees surroundings options arguments.json arguments.inputs) ∧
    (outcome.failure ≠ none → ∃ before path rest, arguments.inputs = before ++ path :: rest ∧
      (∀ p ∈ before, IsSound surroundings options p) ∧
      FailsAt surroundings options arguments.json before path outcome ∧
      ∀ (other : Surroundings) (rest' : List String),
        loadSettings other arguments.config = loadSettings surroundings arguments.config →
        (∀ p ∈ before ++ [path], other.file p = surroundings.file p) →
        run other { arguments with inputs := before ++ path :: rest' } = outcome) := by
  intro options outcome
  have houtcome : outcome = .logging (loadSettings surroundings arguments.config).1
      (runInputs surroundings options arguments.json arguments.inputs) := run_of_settings h
  rcases sound_or_first_failure surroundings options arguments.inputs with
    hall | ⟨before, path, rest, failure, hinputs, hbefore, hfails⟩
  · obtain ⟨hfailure, houtput⟩ := runInputs_append arguments.json hall []
    rw [List.append_nil] at hfailure houtput
    have hnone : outcome.failure = none := by
      rw [houtcome]
      exact hfailure
    refine ⟨iff_of_true hnone hall, fun _ => ?_, fun hne => absurd hnone hne⟩
    rw [houtcome]
    simpa [runInputs, Outcome.logging, Outcome.nothing] using houtput
  · have hends : FailsAt surroundings options arguments.json before path outcome := by
      rw [houtcome, hinputs]
      exact runInputs_failsAt hbefore hfails rest
    have hne := hends.failure_ne_none
    have hunsound : ¬∀ path ∈ arguments.inputs, IsSound surroundings options path :=
      fun hall => hends.not_isSound (hall path (by simp [hinputs]))
    refine ⟨iff_of_false hne hunsound, fun hnone => absurd hnone hne, fun _ =>
      ⟨before, path, rest, hinputs, hbefore, hends, ?_⟩⟩
    intro other rest' hload hagree
    have hsettings : (loadSettings other arguments.config).2 = .ok settings := hload ▸ h
    have hother : run other { arguments with inputs := before ++ path :: rest' } =
        .logging (loadSettings other arguments.config).1
          (runInputs other options arguments.json (before ++ path :: rest')) :=
      run_of_settings hsettings
    rw [hother, houtcome, hload, hinputs]
    exact congrArg (Outcome.logging _) (runInputs_congr hfails hagree rest rest')

end

/-- An input that cannot be read, behind one that is sound. -/
theorem run_stops_at_missing_input :
    let surroundings : Surroundings :=
      ⟨fun path => if path = "a.d2" then .bytes "x".toUTF8 else .absent .notFound, "settings.toml"⟩
    let arguments : Arguments := ⟨["a.d2", "b.d2"], none, true, none, true, "off"⟩
    (loadSettings surroundings arguments.config).2 = .ok {} ∧
      (run surroundings arguments).failure = some (.file .notFound) ∧
      (run surroundings arguments).output =
        writtenTrees surroundings { utf16 := true } true ["a.d2"] := by
  intro surroundings arguments
  have hload : (loadSettings surroundings arguments.config).2 = .ok {} := rfl
  obtain ⟨hsound, -, hfails⟩ := run_stops_at_first_failure hload
  have hfirst : IsSound surroundings { utf16 := true } "a.d2" := by
    refine ⟨"x", ?_, by decide +kernel⟩
    rfl
  have hsecond : (surroundings.file "b.d2").text = .error .notFound := rfl
  have hne : (run surroundings arguments).failure ≠ none := by
    rw [ne_eq, hsound]
    intro hall
    obtain ⟨text, htext, -⟩ := hall "b.d2" (by simp [arguments])
    cases hsecond.symm.trans htext
  obtain ⟨before, path, rest, hinputs, -, hends, -⟩ := hfails hne
  -- the first input is sound, so it is the second one at which the run ends
  rcases before with _ | ⟨p, _ | ⟨q, before⟩⟩ <;> simp [arguments] at hinputs
  · obtain ⟨rfl, -⟩ := hinputs
    exact absurd hfirst hends.not_isSound
  · obtain ⟨rfl, rfl, -⟩ := hinputs
    rcases hends with ⟨error, herror, hfailure, houtput⟩ | ⟨text, htext, -⟩
    · obtain rfl := Except.error.inj (hsecond.symm.trans herror)
      exact ⟨hload, hfailure, houtput⟩
    · cases hsecond.symm.trans htext

end Diagram
