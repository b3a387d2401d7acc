import Diagram.Diagnostic.Basic
import Diagram.Tree.Json

/-!
Diagnostics and parse errors as JSON values.
-/
namespace Diagram

def Code.toJson (code : Code) : Json := .text code.name

def Code.ofJson? (j : Json) : Option Code := do
  Code.ofName? (← j.unit?)

def Diagnostic.toJson (d : Diagnostic) : Json :=
  .object ([("code", d.code.toJson), ("range", d.range.toJson), ("message", .text d.message)] ++
    Json.member? "help" .text d.help)

def Diagnostic.ofJson? (j : Json) : Option Diagnostic := do
  let [some code, some range, some message, help] ←
    j.fields? ["code", "range", "message", "help"] | none
  pure ⟨← Code.ofJson? code, ← Range.ofJson? range, ← message.text?,
    ← Json.optional? Json.text? help⟩

def ParseError.toJson (e : ParseError) : Json :=
  .object (Json.member? "fatal" Diagnostic.toJson e.fatal ++
    [("diagnostics", .array (e.diagnostics.map Diagnostic.toJson))])

def ParseError.ofJson? (j : Json) : Option ParseError := do
  let [fatal, some diagnostics] ← j.fields? ["fatal", "diagnostics"] | none
  pure ⟨← Json.optional? Diagnostic.ofJson? fatal,
    ← (← diagnostics.array?).mapM Diagnostic.ofJson?⟩

end Diagram
