import Diagram.Proofs.Atoms.Parse
import Mathlib.Data.List.DropRight

/-!
What a literal stands for and how it is written. Both are gathered character by character and escape
by escape, so that the one is the other with its escapes replaced. Only the blanks at the end of an
unquoted text are dropped from both on their own, where an escape may stand for one of them.
-/
namespace Diagram

variable {ρ σ : Type}

/-! ## Escapes -/

/-- What a written text stands for: each backslash and the character behind it are replaced by what
the escape stands for. None if there is no character behind the last backslash. -/
def unescape? : List Char → Option (List Char)
  | [] => some []
  | ['\\'] => none
  | '\\' :: c :: cs => (unescape? cs).map (Grammar.escapeValue c :: ·)
  | c :: cs => (unescape? cs).map (c :: ·)

theorem unescape?_cons {c : Char} (h : c ≠ '\\') (cs : List Char) :
    unescape? (c :: cs) = (unescape? cs).map (c :: ·) := by
  conv_lhs => unfold unescape?
  split <;> simp_all

theorem unescape?_append {w v : List Char} (h : unescape? w = some v) (u : List Char) :
    unescape? (w ++ u) = (unescape? u).map (v ++ ·) := by
  induction w using unescape?.induct generalizing v with
  | case1 =>
    obtain rfl := Option.some.inj h
    simp
  | case2 => cases h
  | case3 c cs ih =>
    obtain ⟨v, hv, rfl⟩ := Option.map_eq_some_iff.mp h
    simp [unescape?, ih hv, Function.comp_def]
  | case4 c cs hlone hescape ih =>
    have hplain : c ≠ '\\' := by
      rintro rfl
      cases cs with
      | nil => exact hlone rfl rfl
      | cons c cs => exact hescape c cs rfl rfl
    rw [unescape?_cons hplain] at h
    obtain ⟨v, hv, rfl⟩ := Option.map_eq_some_iff.mp h
    simp [unescape?_cons hplain, ih hv, Function.comp_def]

/-- What is written and what that stands for, both latest first. -/
inductive Spelled : List Char → List Char → Prop
  | nil : Spelled [] []
  | plain {raw value : List Char} {c : Char} (h : Spelled raw value) (hc : c ≠ '\\') :
    Spelled (c :: raw) (c :: value)
  | escape {raw value : List Char} (c : Char) (h : Spelled raw value) :
    Spelled (c :: '\\' :: raw) (Grammar.escapeValue c :: value)

theorem Spelled.unescape? {raw value : List Char} (h : Spelled raw value) :
    unescape? raw.reverse = some value.reverse := by
  induction h with
  | nil => rfl
  | plain h hc ih => simp [unescape?_append ih, unescape?_cons hc, Diagram.unescape?]
  | escape c h ih => simp [unescape?_append ih, Diagram.unescape?]

/-- Where blanks are dropped at the end, the written form stands for the same up to blanks, unless
an escaped blank is cut in half. -/
theorem Spelled.trimmed {raw value : List Char} (h : Spelled raw value) :
    (∃ v, Spelled (raw.dropWhile isBlank) v ∧ v.dropWhile isBlank = value.dropWhile isBlank) ∨
      ∃ w v, Spelled w v ∧ raw.dropWhile isBlank = '\\' :: w := by
  induction h with
  | nil => exact .inl ⟨[], .nil, rfl⟩
  | @plain raw value c h hc ih =>
    cases hblank : isBlank c with
    | true => simpa [hblank] using ih
    | false => exact .inl ⟨c :: value, by simpa [hblank] using h.plain hc, rfl⟩
  | @escape raw value c h ih =>
    -- only an escaped blank is cut in half: what it stands for may or may not be one
    cases hblank : isBlank c with
    | true => exact .inr ⟨raw, value, h, by simp [hblank, show isBlank '\\' = false by decide]⟩
    | false =>
      exact .inl ⟨Grammar.escapeValue c :: value, by simpa [hblank] using h.escape c, rfl⟩

/-! ## Literals -/

/-- A literal stands for what is written, with the escapes replaced. -/
def InStep (value raw : String) : Prop :=
  unescape? raw.toList = some value.toList

instance (value raw : String) : Decidable (InStep value raw) :=
  inferInstanceAs (Decidable (_ = _))

/-- A literal is written without blanks at its end, and stands for what is written with the escapes
replaced and then, again, without blanks at its end. Nothing is said where an escape is cut in
half. -/
structure InStepTrimmed (value raw : String) : Prop where
  raw_trimmed : raw.toList.rdropWhile isBlank = raw.toList
  value_eq : ∀ v, unescape? raw.toList = some v → value.toList = v.rdropWhile isBlank

/-- All literals of a text stand for what is written, and blanks are dropped at the end of an
unquoted text: from its last piece, if that is a literal, and from no other. -/
def Text.InStep : Text ρ → Prop
  | .unquoted _ pieces => ∀ front last, pieces = front ++ [last] →
      (∀ value raw, .literal value raw ∈ front → Diagram.InStep value raw) ∧
        ∀ value raw, last = .literal value raw → InStepTrimmed value raw
  | .doubleQuoted _ pieces => ∀ value raw, .literal value raw ∈ pieces → Diagram.InStep value raw
  | .singleQuoted .. | .block .. => True

def Atom.InStep (x : Atom ρ) : Prop :=
  ∀ t ∈ x.text?, t.InStep

namespace Grammar

variable {π : Type} {F : Frame π} {S : Substitution (Span π) → Prop}

/-- The literals gathered stand for what is written, and so does the one at the end. Any literal in
front of that is followed by a substitution. -/
structure Gathered.InStep (g : Gathered π) : Prop where
  spelled : Spelled g.raw g.value
  literals : ∀ value raw, .literal value raw ∈ g.pieces → Diagram.InStep value raw
  closed : ∀ value raw, g.pieces.head? ≠ some (.literal value raw)

theorem Gathered.InStep.empty : (Gathered.empty (π := π)).InStep :=
  ⟨.nil, fun _ _ hmem => absurd hmem List.not_mem_nil, fun _ _ => nofun⟩

theorem Gathered.InStep.current {g : Gathered π} (h : g.InStep) :
    Diagram.InStep (String.ofList g.value.reverse) (String.ofList g.raw.reverse) := by
  simpa [Diagram.InStep] using h.spelled.unescape?

theorem Gathered.InStep.pushSubstitution {g : Gathered π} (h : g.InStep)
    (x : Substitution (Span π)) : (g.pushSubstitution x).InStep := by
  cases hvalue : g.value.isEmpty with
  | true =>
    refine ⟨?_, fun value raw hmem => h.literals value raw ?_, fun _ _ => nofun⟩
    · simpa [Gathered.pushSubstitution, Gathered.flush, hvalue] using h.spelled
    · simpa [Gathered.pushSubstitution, Gathered.flush, hvalue] using hmem
  | false =>
    refine ⟨?_, fun value raw hmem => ?_, fun _ _ => nofun⟩
    · simpa [Gathered.pushSubstitution, Gathered.flush, hvalue] using Spelled.nil
    · rw [Gathered.pushSubstitution, Gathered.flush_pieces hvalue] at hmem
      rcases List.mem_cons.mp hmem with heq | hmem
      · cases heq
      rcases List.mem_cons.mp hmem with heq | hmem
      · obtain ⟨rfl, rfl⟩ := Piece.literal.inj heq
        exact h.current
      · exact h.literals value raw hmem

theorem Gathered.InStep.kept : Gathered.Kept S (Gathered.InStep (π := π)) where
  empty := .empty
  push h hc := ⟨h.spelled.plain hc, h.literals, h.closed⟩
  escape h := ⟨h.spelled.escape _, h.literals, h.closed⟩
  substitution h _ := h.pushSubstitution _

theorem Gathered.InStep.doubleQuoted {g : Gathered π} (h : g.InStep) (range : Span π) :
    (Text.doubleQuoted range g.finish).InStep := by
  intro value raw hmem
  rcases Gathered.literal_of_mem_finish hmem with hmem | ⟨hvalue, hraw⟩
  · exact h.literals value raw hmem
  · rw [Diagram.InStep, hvalue, hraw]
    exact h.spelled.unescape?

/-- The literal at the end without the blanks there. -/
theorem Gathered.InStep.trimmed {g : Gathered π} (h : g.InStep) :
    InStepTrimmed (String.ofList g.trimEnd.value.reverse)
      (String.ofList g.trimEnd.raw.reverse) := by
  have hdropped : ∀ cs : List Char,
      (cs.dropWhile isBlank).reverse = cs.reverse.rdropWhile isBlank :=
    fun cs => by rw [List.rdropWhile, List.reverse_reverse]
  constructor
  · rw [String.toList_ofList, Gathered.trimEnd, hdropped, List.rdropWhile_idempotent]
  · intro v hv
    rw [String.toList_ofList] at hv ⊢
    rcases h.spelled.trimmed with ⟨v', hspelled, htrimmed⟩ | ⟨w, v', hspelled, hcut⟩
    · obtain rfl : v'.reverse = v := Option.some.inj (hspelled.unescape?.symm.trans hv)
      rw [← hdropped, htrimmed, Gathered.trimEnd]
    · rw [Gathered.trimEnd, hcut, List.reverse_cons, unescape?_append hspelled.unescape?] at hv
      cases hv

theorem Gathered.InStep.unquoted {g : Gathered π} (h : g.InStep) (range : Span π) :
    (Text.unquoted range g.trimEnd.finish).InStep := by
  intro front last heq
  rcases Gathered.pieces_of_finish heq with hpieces | ⟨hpieces, hlast⟩
  · -- nothing is left of the literal at the end, so that the last piece is a substitution
    refine ⟨fun value raw hmem => h.literals value raw ?_, fun value raw hlast => ?_⟩
    · exact hpieces ▸ List.mem_cons_of_mem last (List.mem_reverse.mpr hmem)
    · exact absurd (hlast ▸ congrArg List.head? hpieces) (h.closed value raw)
  · refine ⟨fun value raw hmem => h.literals value raw ?_, fun value raw hliteral => ?_⟩
    · exact hpieces ▸ List.mem_reverse.mpr hmem
    · obtain ⟨rfl, rfl⟩ := Piece.literal.inj (hlast.symm.trans hliteral)
      exact h.trimmed

/-- All the texts that are read stand for what is written. -/
theorem text_inStep {role : Role π} (hrole : role.Inserts F S) (p : List Char) :
    Ensures (State.At F p []) (text role) fun r _ => ∀ t ∈ r, t.InStep := by
  refine text_ensures (fun p c _ _ => ?_) (fun p => ?_) (fun _ _ => trivial)
    (fun _ _ _ _ => trivial) p
  · refine (unquotedText_keeps Gathered.InStep.kept.unquoted hrole .empty).weaken
      fun r _ h t ht => ?_
    obtain ⟨u, i, hu, -, rfl⟩ := h t ht
    exact hu.unquoted _
  · refine (doubleQuotedText_keeps Gathered.InStep.kept hrole p).weaken fun t _ h => ?_
    obtain ⟨g, range, hg, rfl⟩ := h
    exact hg.doubleQuoted range

theorem inStep_fits {T : Tape π} : Fits T Atom.InStep where
  name _ p s hs t ht x hx := by
    obtain rfl := Option.some.inj hx
    exact text_inStep (S := fun _ => True) Role.key_inserts p s hs _ ht
  scalar _ p s hs t ht x hx := by
    cases hscalar : scalarOf t with
    | text t' =>
      rw [hscalar] at hx
      obtain rfl := Option.some.inj hx
      obtain rfl := scalarOf_eq_text hscalar
      exact text_inStep (Role.value_inserts Fits.trivial) p s hs _ ht
    | null _ | boolean _ _ | number _ _ _ =>
      rw [hscalar] at hx
      cases hx
  insertion _ _ _ hx := nomatch hx
  spread _ _ _ hx := nomatch hx

end Grammar

/-! ## The tree of a source -/

/-- What is written does not depend on the marks. -/
theorem Text.InStep.mapMarks {t : Text ρ} (h : t.InStep) (f : ρ → σ) : (t.mapMarks f).InStep := by
  cases t with
  | unquoted _ pieces =>
    intro front last heq
    rw [Piece.mapMarksAll_eq] at heq
    obtain ⟨front, rest, rfl, rfl, hrest⟩ := List.map_eq_append_iff.mp heq
    obtain ⟨last, rfl, rfl⟩ := List.map_eq_singleton_iff.mp hrest
    obtain ⟨hfront, hlast⟩ := h front last rfl
    refine ⟨fun value raw hmem => hfront value raw ?_, fun value raw hliteral => ?_⟩
    · rw [← Piece.mapMarksAll_eq] at hmem
      exact Piece.literal_mem_of_mapMarks hmem
    · exact hlast value raw (Piece.literal_of_mapMarks hliteral)
  | doubleQuoted _ pieces =>
    exact fun value raw hmem => h value raw (Piece.literal_mem_of_mapMarks hmem)
  | singleQuoted _ _ | block _ _ _ _ => trivial

/-- **Literals**: in the tree of a source, each literal of an unquoted or double quoted text stands
for what is written, with its escapes replaced. Only a literal that ends an unquoted text is
trimmed: there are no blanks at the end of what is written, and those that its escapes leave at the
end of what it stands for are dropped. -/
theorem parse_in_step (label : String) (source : List Delivery) (options : Options) :
    Atom.All Atom.InStep (parse label source options).map.atoms := by
  intro x hx t ht
  obtain ⟨y, hy, rfl⟩ := parse_atoms label Grammar.inStep_fits x hx
  rw [Atom.text?_mapMarks] at ht
  obtain ⟨t, hmem, rfl⟩ := Option.map_eq_some_iff.mp ht
  exact (hy t hmem).mapMarks _

/-- An escaped tab at the end of a text is dropped from what the text stands for,
but not from how it is written. -/
theorem parse_drops_escaped_tab :
    ¬∀ x ∈ (parse "t.d2" (deliveries "a\\t".toList) {}).map.atoms, ∀ t ∈ x.text?,
      ∀ pieces ∈ t.pieces?, ∀ value raw, .literal value raw ∈ pieces → InStep value raw := by
  intro hall
  have hfound : .name (.unquoted ⟨"t.d2", ⟨0, 0, 0⟩, ⟨0, 3, 3⟩⟩ [.literal "a" "a\\t"]) ∈
      (parse "t.d2" (deliveries "a\\t".toList) {}).map.atoms := by decide +kernel
  have hstep : InStep "a" "a\\t" :=
    hall _ hfound _ rfl _ rfl "a" "a\\t" (List.mem_singleton_self _)
  exact absurd hstep (by decide)

end Diagram
