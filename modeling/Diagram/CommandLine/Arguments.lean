import Diagram.Range.Compact

/-!
The arguments of the command line.

Options may stand before and behind the inputs. A parameter takes its value from the same argument
or from the next one, which then must not start with a dash. `--` ends the options. A parameter
whose value is in the next argument is settled only when the option or input behind it is reached,
so an unknown option there is complained about first.
-/
namespace Diagram

structure Arguments where
  /-- The paths of the diagrams to read. -/
  inputs : List String
  /-- The path of the settings file. -/
  config : Option String
  utf16 : Bool
  maxDepth : Option Nat
  /-- The trees are written out. -/
  json : Bool
  logLevel : String
  deriving DecidableEq, Repr

/-- Why there are no arguments to run with. -/
inductive UsageStop where
  | missingInput
  | unknownOption
  | repeatedOption
  | invalidNumber
  | missingValue
  /-- A flag was given a value. -/
  | unwantedValue
  | helpWanted
  | versionWanted
  deriving DecidableEq, Repr

/-- Asking for help or the version is no error. -/
def UsageStop.exitCode : UsageStop → Nat
  | .helpWanted | .versionWanted => 0
  | _ => 2

namespace CommandLine

/-- An option with a value. -/
inductive Parameter where
  | config
  | maxDepth
  | logLevel
  deriving DecidableEq, Repr

/-- An option without a value. -/
inductive Flag where
  | utf16
  | json
  | help
  | version
  deriving DecidableEq, Repr

inductive OptionName where
  | parameter (parameter : Parameter)
  | flag (flag : Flag)
  deriving DecidableEq, Repr

/-- The option with a long name. -/
def longOption? : String → Option OptionName
  | "config" => some (.parameter .config)
  | "max-depth" => some (.parameter .maxDepth)
  | "log-level" => some (.parameter .logLevel)
  | "utf16" => some (.flag .utf16)
  | "json" => some (.flag .json)
  | "help" => some (.flag .help)
  | "version" => some (.flag .version)
  | _ => none

/-- The option with a short name. -/
def shortOption? : Char → Option OptionName
  | 'c' => some (.parameter .config)
  | 'h' => some (.flag .help)
  | 'V' => some (.flag .version)
  | _ => none

/-- What has been gathered from the arguments so far. -/
structure Gathered where
  /-- Latest first. -/
  inputs : List String
  config : Option String
  maxDepth : Option Nat
  logLevel : Option String
  utf16 : Bool
  json : Bool
  /-- The parameter that is not settled, with its value if that has been read. -/
  pending : Option (Parameter × Option String)

namespace Gathered

def empty : Gathered := ⟨[], none, none, none, false, false, none⟩

/-- Sets a parameter, which may be done once. -/
def set (parameter : Parameter) (value : String) (g : Gathered) : Except UsageStop Gathered :=
  match parameter with
  | .config =>
    if g.config.isSome then .error .repeatedOption else .ok { g with config := some value }
  | .logLevel =>
    if g.logLevel.isSome then .error .repeatedOption else .ok { g with logLevel := some value }
  | .maxDepth =>
    if g.maxDepth.isSome then .error .repeatedOption
    else match numeral? value.toList with
      | some n => .ok { g with maxDepth := some n }
      | none => .error .invalidNumber

/-- Settles the parameter that is not settled. -/
def settle (g : Gathered) : Except UsageStop Gathered :=
  match g.pending with
  | none => .ok g
  | some (_, none) => .error .missingValue
  | some (parameter, some value) => { g with pending := none }.set parameter value

/-- Raises a flag, which may be done once. -/
def raise (flag : Flag) (g : Gathered) : Except UsageStop Gathered := do
  let g ← g.settle
  match flag with
  | .utf16 => if g.utf16 then .error .repeatedOption else .ok { g with utf16 := true }
  | .json => if g.json then .error .repeatedOption else .ok { g with json := true }
  | .help => .error .helpWanted
  | .version => .error .versionWanted

/-- Meets a parameter, whose value may be in the same argument. -/
def meet (parameter : Parameter) (value : Option String) (g : Gathered) :
    Except UsageStop Gathered := do
  let g ← g.settle
  match value with
  | some value => g.set parameter value
  | none => .ok { g with pending := some (parameter, none) }

/-- Meets an argument that starts with two dashes. -/
def long (cs : List Char) (g : Gathered) : Except UsageStop Gathered :=
  let (name, value) := match cutFirst '=' cs with
    | some (name, value) => (name, some (String.ofList value))
    | none => (cs, none)
  match longOption? (String.ofList name), value with
  | none, _ => .error .unknownOption
  | some (.flag _), some _ => .error .unwantedValue
  | some (.flag flag), none => g.raise flag
  | some (.parameter parameter), value => g.meet parameter value

/-- Meets the options with short names in an argument that starts with one dash. -/
def short : List Char → Gathered → Except UsageStop Gathered
  | [], g => .ok g
  | c :: cs, g =>
    match shortOption? c with
    | none => .error .unknownOption
    | some (.flag flag) => do short cs (← g.raise flag)
    | some (.parameter parameter) =>
      match cs with
      | [] => g.meet parameter none
      | '=' :: value => g.meet parameter (some (String.ofList value))
      | value => g.meet parameter (some (String.ofList value))

/-- Meets an input. -/
def input (argument : String) (g : Gathered) : Except UsageStop Gathered := do
  let g ← g.settle
  .ok { g with inputs := argument :: g.inputs }

/-- Meets an argument that is not an option: a value that is waited for, or an input. -/
def plain (argument : String) (g : Gathered) : Except UsageStop Gathered :=
  match g.pending with
  | some (parameter, none) => .ok { g with pending := some (parameter, some argument) }
  | _ => g.input argument

/-- Meets one argument in front of `--`. -/
def argument (s : String) (g : Gathered) : Except UsageStop Gathered :=
  match s.toList with
  | '-' :: '-' :: cs => g.long cs
  | '-' :: c :: cs => short (c :: cs) g
  | _ => g.plain s

/-- Meets all arguments. -/
def arguments : List String → Gathered → Except UsageStop Gathered
  | [], g => .ok g
  | s :: rest, g => do
    if s = "--" then rest.foldlM (fun g s => g.input s) g
    else arguments rest (← g.argument s)

end Gathered

end CommandLine

/-- Where no level is chosen, warnings are logged. -/
def defaultLogLevel : String := "warn"

/-- Reads the arguments of the command line. -/
def Arguments.ofList (arguments : List String) : Except UsageStop Arguments := do
  let g ← CommandLine.Gathered.arguments arguments .empty
  let g ← g.settle
  if g.inputs.isEmpty then .error .missingInput
  else .ok ⟨g.inputs.reverse, g.config, g.utf16, g.maxDepth, g.json,
    g.logLevel.getD defaultLogLevel⟩

end Diagram
