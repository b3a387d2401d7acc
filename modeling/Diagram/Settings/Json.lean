import Diagram.Json.Basic
import Diagram.Parse
import Diagram.Range.Compact

/-!
Options as JSON values: a record in which every field may be missing.
-/
namespace Diagram

/-- Reads options; a field that is missing keeps its default. -/
def Options.ofJson? (j : Json) : Option Options := do
  let default : Options := {}
  let [utf16, maxDepth] ← j.fields? ["utf16", "max_depth"] | none
  pure ⟨← Json.default? default.utf16 Json.boolean? utf16,
    ← Json.default? default.maxDepth (Json.natural? maxWord) maxDepth⟩

end Diagram
