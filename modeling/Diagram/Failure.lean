import Diagram.Diagnostic.Basic

/-!
What can stop a run of the program, and the exit code and message it then ends with.
-/
namespace Diagram

/-- Why a file cannot be read as text. -/
inductive FileError where
  | notFound
  | notDirectory
  | isDirectory
  | nameTooLong
  | invalidName
  | invalidText
  /-- Another reason, in the words of the system. -/
  | other (reason : String)
  deriving DecidableEq, Repr

def FileError.message : FileError → String
  | .notFound => "No such file or directory (os error 2)"
  | .notDirectory => "Not a directory (os error 20)"
  | .isDirectory => "Is a directory (os error 21)"
  | .nameTooLong => "File name too long (os error 36)"
  | .invalidName => "file name contained an unexpected NUL byte"
  | .invalidText => "stream did not contain valid UTF-8"
  | .other reason => reason

/-- Why there are no settings to run with. -/
inductive SettingsError where
  /-- The file does not hold settings. -/
  | malformed
  /-- The file that was asked for does not exist. -/
  | missingFile (path : String)
  deriving DecidableEq, Repr

def SettingsError.message : SettingsError → String
  | .malformed => "Failed to parse TOML configuration"
  | .missingFile path => "Missing configuration file: " ++ path

inductive Failure where
  /-- A file could not be read. -/
  | file (error : FileError)
  | settings (error : SettingsError)
  /-- A diagram with something wrong in it; its text is kept for the reports. -/
  | diagram (error : ParseError) (text : String) (utf16 : Bool)
  /-- The trees could not be written out. -/
  | output (reason : String)
  deriving DecidableEq, Repr

namespace Failure

def message : Failure → String
  | .file error => "I/O error: " ++ error.message
  | .settings error => "Configuration error: " ++ error.message
  | .diagram error _ _ => error.display
  | .output reason => "Output error: " ++ reason

/-- The exit code of a run: 1 for a diagram with something wrong in it, 2 for the settings or the
output, 3 for a source that could not be read. -/
def exitCode : Failure → Nat
  | .diagram error _ _ => if error.fatal.isSome then 3 else 1
  | .settings _ | .output _ => 2
  | .file _ => 3

end Failure

end Diagram
