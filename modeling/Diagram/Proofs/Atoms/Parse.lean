import Diagram.Proofs.Atoms.Container
import Diagram.Proofs.Sound.Parse

/-!
What holds of all the texts, substitutions and scalars that are read on a tape holds of those in the
tree of a source.
-/
namespace Diagram

/-- **Atoms of a tree**: all of them have been read on the tape of the source. -/
theorem parse_atoms {A : Atom (Span Position) → Prop} (label : String) {source : List Delivery}
    {options : Options} (hfits : Grammar.Fits (Frame.ofSource options.counting.meter
      options.counting.meter_lawful source options.maxDepth).toTape A) :
    ∀ x ∈ (parse label source options).map.atoms,
      ∃ y, A y ∧ y.mapMarks (Span.toRange label) = x := by
  have hstart := State.ofSource_at options.counting.meter_lawful source options.maxDepth
  have hvalue := Grammar.value_fits (F := .ofSource _ _ source options.maxDepth) hfits rfl
  have hfile : Atom.All A (readFile options.counting.meter source options.maxDepth).1.atoms :=
    Grammar.fileMap_ensures hfits hvalue.yields hvalue.reads rfl [] _ hstart
  have hmap : (parse label source options).map =
      (readFile options.counting.meter source options.maxDepth).1.mapMarks (Span.toRange label) :=
    rfl
  rw [hmap, Map.atoms_mapMarks]
  intro x hx
  obtain ⟨y, hy, rfl⟩ := List.mem_map.mp hx
  exact ⟨y, hfile y hy, rfl⟩

end Diagram
