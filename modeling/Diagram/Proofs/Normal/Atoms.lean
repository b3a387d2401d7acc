import Diagram.Proofs.Atoms.Basic
import Mathlib.Data.List.Chain

/-!
The normal form of texts and scalars: the literals of a text are neither empty nor next to each
other, what is unquoted does not end in blanks, names hold no substitutions, and a scalar is a text
only if it does not read as something else.
-/
namespace Diagram

variable {ρ σ : Type}

/-! ## Normal form -/

/-- An unquoted text in a value that is taken for null, a boolean or a number. -/
def readsAsScalar (s : String) : Bool :=
  Grammar.isKeyword "null" s || Grammar.isKeyword "true" s || Grammar.isKeyword "false" s ||
    (numberValue? s.toList).isSome

/-- No blank stands at the end. -/
def EndsVisible (s : String) : Prop :=
  ∀ c ∈ s.toList.getLast?, isBlank c = false

def Piece.isLiteral : Piece ρ → Bool
  | .literal .. => true
  | .substitution _ => false

def Piece.substitution? : Piece ρ → Option (Substitution ρ)
  | .literal .. => none
  | .substitution s => some s

/-- The substitutions inside of a text. -/
def Text.substitutions (t : Text ρ) : List (Substitution ρ) :=
  (t.pieces?.getD []).filterMap Piece.substitution?

/-- The literals among the pieces of a text are neither empty nor next to each other. -/
structure Piece.Separated (pieces : List (Piece ρ)) : Prop where
  nonempty : ∀ value raw, .literal value raw ∈ pieces → value ≠ ""
  apart : pieces.IsChain fun p next => ¬(p.isLiteral ∧ next.isLiteral)

/-- A text that is not split up or padded needlessly. -/
def Text.Normal : Text ρ → Prop
  | .unquoted _ pieces => pieces ≠ [] ∧ Piece.Separated pieces ∧
      ∀ value raw, pieces.getLast? = some (.literal value raw) → EndsVisible value ∧ EndsVisible raw
  | .doubleQuoted _ pieces => Piece.Separated pieces
  | .singleQuoted .. | .block .. => True

/-- A number has the value of its literal, in lowest terms, and a text does not read as another
scalar. -/
def Scalar.Normal : Scalar ρ → Prop
  | .null _ | .boolean .. => True
  | .number _ raw value => ∃ q, numberValue? raw.toList = some q ∧ value = .ofRat q
  | .text t => t.Normal ∧
      ∀ range value raw, t = .unquoted range [.literal value raw] → readsAsScalar value = false

def Atom.Normal : Atom ρ → Prop
  | .name t => t.Normal ∧ t.substitutions = []
  | .scalar s => s.Normal
  | .insertion s => s.spread = false
  | .spread s => s.spread = true

/-- All of the atoms have the normal form. -/
def Atom.AllNormal (xs : List (Atom ρ)) : Prop :=
  ∀ x ∈ xs, x.Normal

section

variable {f : ρ → σ}

theorem Piece.isLiteral_mapMarks (p : Piece ρ) : (p.mapMarks f).isLiteral = p.isLiteral := by
  cases p <;> rfl

/-- It does not matter from which end the pieces are read. -/
theorem Piece.Separated.reverse {pieces : List (Piece ρ)} (h : Piece.Separated pieces) :
    Piece.Separated pieces.reverse := by
  refine ⟨fun value raw hmem => h.nonempty value raw (List.mem_reverse.mp hmem), ?_⟩
  rw [List.isChain_reverse]
  exact h.apart.imp fun p next hapart hboth => hapart hboth.symm

theorem Piece.Separated.mapMarks {pieces : List (Piece ρ)} (h : Piece.Separated pieces) :
    Piece.Separated (Piece.mapMarksAll f pieces) := by
  rw [Piece.mapMarksAll_eq]
  refine ⟨fun value raw hmem => ?_, ?_⟩
  · obtain ⟨p, hp, hliteral⟩ := List.mem_map.mp hmem
    obtain rfl := Piece.literal_of_mapMarks hliteral
    exact h.nonempty value raw hp
  · simpa only [List.isChain_map, Piece.isLiteral_mapMarks] using h.apart

theorem Text.substitutions_mapMarks (t : Text ρ) :
    (t.mapMarks f).substitutions = t.substitutions.map (Substitution.mapMarks f) := by
  have hpieces : ∀ pieces : List (Piece ρ),
      (Piece.mapMarksAll f pieces).filterMap Piece.substitution? =
        (pieces.filterMap Piece.substitution?).map (Substitution.mapMarks f) := by
    intro pieces
    rw [Piece.mapMarksAll_eq, List.filterMap_map, List.map_filterMap]
    congr 1
    funext p
    cases p <;> rfl
  cases t with
  | unquoted _ pieces | doubleQuoted _ pieces => exact hpieces pieces
  | singleQuoted _ _ | block _ _ _ _ => rfl

theorem Text.Normal.mapMarks {t : Text ρ} (h : t.Normal) : (t.mapMarks f).Normal := by
  cases t with
  | unquoted _ pieces =>
    obtain ⟨hne, hpieces, hlast⟩ := h
    refine ⟨?_, hpieces.mapMarks, fun value raw hliteral => ?_⟩
    · simpa [Piece.mapMarksAll_eq] using hne
    · rw [Piece.mapMarksAll_eq, List.getLast?_map, Option.map_eq_some_iff] at hliteral
      obtain ⟨p, hp, hliteral⟩ := hliteral
      obtain rfl := Piece.literal_of_mapMarks hliteral
      exact hlast value raw hp
  | doubleQuoted _ pieces => exact Piece.Separated.mapMarks h
  | singleQuoted _ _ | block _ _ _ _ => trivial

theorem Scalar.Normal.mapMarks {s : Scalar ρ} (h : s.Normal) : (s.mapMarks f).Normal := by
  cases s with
  | null _ | boolean _ _ => trivial
  | number _ raw value => exact h
  | text t =>
    refine ⟨h.1.mapMarks, fun range value raw hliteral => ?_⟩
    cases t with
    | unquoted range' pieces =>
      obtain ⟨-, hpieces⟩ := Text.unquoted.inj hliteral
      rw [Piece.mapMarksAll_eq, List.map_eq_singleton_iff] at hpieces
      obtain ⟨p, rfl, hp⟩ := hpieces
      obtain rfl := Piece.literal_of_mapMarks hp
      exact h.2 range' value raw rfl
    | doubleQuoted _ _ | singleQuoted _ _ | block _ _ _ _ => cases hliteral

/-- The normal form does not depend on the marks. -/
theorem Atom.Normal.mapMarks {x : Atom ρ} (h : x.Normal) : (x.mapMarks f).Normal := by
  cases x with
  | name t => exact ⟨h.1.mapMarks, by rw [Text.substitutions_mapMarks, h.2, List.map_nil]⟩
  | scalar s => exact Scalar.Normal.mapMarks h
  | insertion s | spread s =>
    cases s
    exact h

end

end Diagram
