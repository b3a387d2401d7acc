import Diagram.Parse
import Diagram.Settings.Toml.Document

/-!
Settings files: a TOML document with a table `parser`, in which `utf16` and `max_depth` set the
options. What is not set keeps its default.
-/
namespace Diagram

/-- The value of `utf16`. -/
def utf16Setting? : Toml.Value → Option Bool
  | .boolean value => some value
  | _ => none

/-- The value of `max_depth`. -/
def maxDepthSetting? : Toml.Value → Option Nat
  | .integer n => if 0 ≤ n && n ≤ maxWord then some n.toNat else none
  | _ => none

/-- A setting that keeps its default if it is not there. -/
def setting? {α : Type} (default : α) (read : Toml.Value → Option α) :
    Option Toml.Value → Option α
  | none => some default
  | some v => read v

/-- The names of the settings, in the order that an array has them in. -/
def settingNames : List String := ["utf16", "max_depth"]

/-- The options that the value of `parser` sets. Names that are not known are passed over, though
their values must not be too large; a moment has no name that is known, and an array sets the
options in their order. -/
def Options.ofValue? (v : Toml.Value) : Option Options := do
  let (utf16, maxDepth) ← match v with
    | .table _ members =>
      if members.all fun (name, v) => name ∈ settingNames || v.fits then
        some (Toml.find "utf16" members, Toml.find "max_depth" members)
      else none
    | .array elements => some (elements[0]?, elements[1]?)
    | .moment => some (none, none)
    | _ => none
  let default : Options := {}
  pure ⟨← setting? default.utf16 utf16Setting? utf16,
    ← setting? default.maxDepth maxDepthSetting? maxDepth⟩

/-- The options that a settings file sets. Nothing but `parser` may be set. -/
def Options.ofSettings? (text : String) : Option Options := do
  let members ← Toml.read? text.toList
  if members.all fun (name, _) => name = "parser" then
    setting? {} Options.ofValue? (Toml.find "parser" members)
  else none

end Diagram
