import Diagram.Tree.Basic

/-!
Keys that say the same. Equivalent keys have the same parts, paths with the same names, maps with
equivalent entries, scalars with the same content and sequences of the same length. Marks and
written forms do not count.
-/
namespace Diagram

variable {ρ : Type}

/-- Two paths with the same names; a path that is not there says nothing. -/
def KeyPath.agree : Option (KeyPath ρ) → Option (KeyPath ρ) → Bool
  | some p, some q => p.names == q.names
  | _, _ => true

mutual

def Key.equivalent : Key ρ → Key ρ → Bool
  | ⟨_, _, path, edges, edgeIndex, edgePath, _, value⟩,
    ⟨_, _, path', edges', edgeIndex', edgePath', _, value'⟩ =>
    path.isSome == path'.isSome && edgeIndex.isSome == edgeIndex'.isSome &&
      edgePath.isSome == edgePath'.isSome && edges.length == edges'.length &&
      KeyPath.agree path path' && Value.equivalent? value value'
termination_by structural k => k

def Value.equivalent? : Option (Value ρ) → Option (Value ρ) → Bool
  | none, none => true
  | some v, some v' => v.equivalent v'
  | _, _ => false
termination_by structural v => v

def Value.equivalent : Value ρ → Value ρ → Bool
  | .map m, .map m' => m.equivalent m'
  | .sequence s, .sequence s' => s.items.length == s'.items.length
  | .scalar s, .scalar s' => s.content == s'.content
  | _, _ => false
termination_by structural v => v

def Map.equivalent : Map ρ → Map ρ → Bool
  | ⟨_, entries⟩, ⟨_, entries'⟩ => Entry.equivalentAll entries entries'
termination_by structural m => m

def Entry.equivalentAll : List (Entry ρ) → List (Entry ρ) → Bool
  | [], [] => true
  | e :: es, e' :: es' => e.equivalent e' && Entry.equivalentAll es es'
  | _, _ => false
termination_by structural es => es

def Entry.equivalent : Entry ρ → Entry ρ → Bool
  | .key k, .key k' => k.equivalent k'
  | .key _, _ => false
  | _, .key _ => false
  | _, _ => true
termination_by structural e => e

end

end Diagram
