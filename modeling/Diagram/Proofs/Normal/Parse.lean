import Diagram.Proofs.Atoms.Parse
import Diagram.Proofs.Normal.Text

/-!
The normal form of what is read: no tree holds a text that is split up or padded needlessly, a name
with a substitution, or a text that should be another scalar.
-/
namespace Diagram

/-- **Normal form**: whatever the source delivers, and however it fails, all texts, substitutions
and scalars in the tree that is read of it have the normal form. -/
theorem parse_normal (label : String) (source : List Delivery) (options : Options) :
    Atom.AllNormal (parse label source options).map.atoms := by
  intro x hx
  obtain ⟨y, hy, rfl⟩ := parse_atoms label Grammar.normal_fits x hx
  exact hy.mapMarks

end Diagram
