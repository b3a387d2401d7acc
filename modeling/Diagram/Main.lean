import Diagram.CommandLine.Run
import Diagram.Report

/-!
The command line program: it looks up the files that a run may need, runs, and shows the outcome.
-/
namespace Diagram

/-- What a path leads to where reading the file has failed. -/
def fileOfError : IO.Error → File
  | .noFileOrDirectory .. => .absent .notFound
  | .inappropriateType _ code _ => if code = 21 then .directory else .absent .notDirectory
  | error => .absent (.other (toString error))

/-- What a path leads to. -/
def readFileAt (path : String) : IO File := do
  try
    return .bytes (← IO.FS.readBinFile path)
  catch error =>
    return fileOfError error

/-- The path of the settings file that the platform provides for. -/
def platformSettingsPath : IO String := do
  let directory ← match ← IO.getEnv "XDG_CONFIG_HOME" with
    | some directory => pure directory
    | none => pure ((← IO.getEnv "HOME").getD "" ++ "/.config")
  return directory ++ "/d2-parse/config.toml"

/-- The surroundings of a run that needs no other paths than the given ones. -/
def surroundingsOf (platformSettings : String) (paths : List String) : IO Surroundings := do
  let files ← paths.mapM fun path => return (path, ← readFileAt path)
  return ⟨fun path => (files.lookup path).getD (.absent .notFound), platformSettings⟩

def LogLevel.name : LogLevel → String
  | .trace => "TRACE"
  | .debug => "DEBUG"
  | .info => "INFO"
  | .warn => "WARN"

/-- The levels that are logged where one is chosen by name. -/
def logLevels : String → List LogLevel
  | "off" | "error" => []
  | "info" => [.warn, .info]
  | "debug" => [.warn, .info, .debug]
  | "trace" => [.warn, .info, .debug, .trace]
  | _ => [.warn]

def LogRecord.line (record : LogRecord) : String :=
  record.values.foldl (fun line (name, value) => line ++ " " ++ name ++ "=" ++ value)
    (record.level.name ++ " " ++ record.message)

/-- The lines that a report is shown in. -/
def Report.lines (report : Report) : List String :=
  ((report.code.map (· ++ ": ")).getD "" ++ report.text) ::
    (report.help.map ("  help: " ++ ·)).toList

/-- What is shown where there is nothing to run with. -/
def UsageStop.message : UsageStop → String
  | .missingInput => "no input was given"
  | .unknownOption => "unknown option"
  | .repeatedOption => "an option was given twice"
  | .invalidNumber => "invalid number"
  | .missingValue => "an option has no value"
  | .unwantedValue => "an option takes no value"
  | .helpWanted =>
    "usage: d2-parse [--config FILE] [--utf16] [--max-depth N] [--json] " ++
      "[--log-level LEVEL] INPUT..."
  | .versionWanted => "d2-parse 0.1.0"

end Diagram

open Diagram in
/-- Runs the program and ends with its exit code. -/
def main (arguments : List String) : IO UInt32 := do
  match Arguments.ofList arguments with
  | .error stop =>
    if stop.exitCode = 0 then IO.println stop.message else IO.eprintln stop.message
    return stop.exitCode.toUInt32
  | .ok arguments =>
    let platform ← platformSettingsPath
    let paths := arguments.config.toList ++ [projectSettings, platform] ++ arguments.inputs
    let outcome := run (← surroundingsOf platform paths) arguments
    IO.print outcome.output
    let levels := logLevels arguments.logLevel
    for record in outcome.records do
      if record.level ∈ levels then IO.eprintln record.line
    for report in (outcome.failure.map Failure.reports).getD [] do
      for line in report.lines do
        IO.eprintln line
    return outcome.exitCode.toUInt32
