import Diagram.CommandLine.Arguments
import Diagram.CommandLine.File
import Diagram.Json.Pretty
import Diagram.Log
import Diagram.Settings.Basic
import Diagram.Tree.Json

/-!
A run of the program: the settings are loaded, then the inputs are read one after the other up to
the first in which something is wrong. What the run writes and logs, and how it ends, are parts of
its outcome.
-/
namespace Diagram

/-- What a run depends on besides its arguments. -/
structure Surroundings where
  /-- What the paths lead to. -/
  file : String → File
  /-- The path of the settings file that the platform provides for. -/
  platformSettings : String

/-- What a run does, or a part of it. -/
structure Outcome where
  output : String
  records : List LogRecord
  failure : Option Failure

namespace Outcome

/-- Nothing happens. -/
def nothing : Outcome := ⟨"", [], none⟩

/-- What a failure leaves. -/
def failed (failure : Failure) : Outcome := ⟨"", [], some failure⟩

/-- Some records, and then the rest. -/
def logging (records : List LogRecord) (rest : Outcome) : Outcome :=
  { rest with records := records ++ rest.records }

/-- Some output, and then the rest. -/
def writing (output : String) (rest : Outcome) : Outcome :=
  { rest with output := output ++ rest.output }

end Outcome

/-! ## Settings -/

/-- The path of the settings file of a project. -/
def projectSettings : String := "d2/config.toml"

/-- Reads a settings file. -/
def readSettings (surroundings : Surroundings) (path : String) : Except Failure Options :=
  let file := surroundings.file path
  if !file.isThere then .error (.settings (.missingFile path))
  else match file.text with
    | .error error => .error (.file error)
    | .ok text =>
      match Options.ofSettings? text with
      | none => .error (.settings .malformed)
      | some options => .ok options

/-- The record of settings that are loaded from a path. -/
def loadingRecord (origin path : String) : LogRecord :=
  ⟨.info, "Loading configuration from " ++ origin ++ " path", [("path", path)]⟩

/-- Finds and reads the settings: from the path that was asked for, or else from that of the project
or that of the platform if there is something. Otherwise the defaults are taken. -/
def loadSettings (surroundings : Surroundings) (config : Option String) :
    List LogRecord × Except Failure Options :=
  match config with
  | some path => ([loadingRecord "explicit" path], readSettings surroundings path)
  | none =>
    if (surroundings.file projectSettings).isThere then
      ([loadingRecord "local" projectSettings], readSettings surroundings projectSettings)
    else
      let path := surroundings.platformSettings
      if (surroundings.file path).isThere then
        ([loadingRecord "system" path], readSettings surroundings path)
      else
        ([⟨.debug, "System configuration file not found", [("path", path)]⟩,
          ⟨.debug, "No configuration file found, using default configuration", []⟩], .ok {})

/-- The options of a run: those of the settings, and over them those of the arguments. -/
def Arguments.override (arguments : Arguments) (options : Options) : Options :=
  { utf16 := options.utf16 || arguments.utf16
    maxDepth := arguments.maxDepth.getD options.maxDepth }

/-! ## Inputs -/

/-- The written form of a tree. -/
def Map.written (m : Map Range) : String := m.toJson.pretty ++ "\n"

/-- Reads the inputs up to the first in which something is wrong. -/
def runInputs (surroundings : Surroundings) (options : Options) (json : Bool) :
    List String → Outcome
  | [] => .nothing
  | path :: rest =>
    .logging
      [⟨.info, "Parsing file", [("input_path", path), ("utf16", toString options.utf16)]⟩] <|
    match (surroundings.file path).text with
    | .error error => .failed (.file error)
    | .ok text =>
      let source := deliveries text.toList
      let found := parse path source options
      .logging (parseRecords path source options) <|
      .writing (if json then found.map.written else "") <|
      match found.error? with
      | some error =>
        .logging
          [⟨.warn, "File has syntax errors",
            [("input_path", path), ("diagnostics", toString error.toList.length)]⟩]
          (.failed (.diagram error text options.utf16))
      | none =>
        .logging
          [⟨.info, "File parsed successfully",
            [("input_path", path), ("nodes", toString found.map.entries.length)]⟩]
          (runInputs surroundings options json rest)

/-- Runs the program. -/
def run (surroundings : Surroundings) (arguments : Arguments) : Outcome :=
  let (records, settings) := loadSettings surroundings arguments.config
  .logging records <|
  match settings with
  | .error failure => .failed failure
  | .ok options =>
    runInputs surroundings (arguments.override options) arguments.json arguments.inputs

/-- The exit code of an outcome. -/
def Outcome.exitCode (outcome : Outcome) : Nat :=
  (outcome.failure.map Failure.exitCode).getD 0

end Diagram
