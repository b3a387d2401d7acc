import Diagram.Proofs.Sound.Parse

/-!
The parts of the grammar keep the rules of the reader and leave nothing behind: no character is
consumed over lookahead or put back in the wrong place, no place is stepped back over a newline, no
level is left that was not entered, and no value is read between the parentheses of an edge group.
-/
namespace Diagram

variable {π α : Type}

/-! ## The rules of the grammar -/

/-- A state in which the characters `opening` have just been consumed and nothing is looked at. -/
def State.Ready (opening : List Char) (s : State π) : Prop :=
  ∃ F p, s.At F (opening.reverse ++ p) []

/-- What a part of the grammar leaves behind: no lookahead and no broken rule, the levels as they
were, and a state that reading goes on from. -/
structure State.Tidy (before s : State π) : Prop where
  looked : s.reader.looked = []
  breach : s.reader.breach = none
  depth : s.depth = before.depth
  inGroup : s.inGroup = before.inGroup
  ready : s.Ready []

theorem State.At.tidy {F : Frame π} {p q : List Char} {s s' : State π} (hs : s.At F p [])
    (hs' : s'.At F q []) : State.Tidy s s' :=
  ⟨hs'.reader.looked, hs'.reader.breach, hs'.depth.trans hs.depth.symm,
    hs'.inGroup.trans hs.inGroup.symm, F, q, hs'⟩

/-- Behind the characters `opening`, from states with `P`, a part of the grammar leaves everything
tidy. -/
def KeepsRules (opening : List Char) (g : Grammar π α) (P : State π → Prop := fun _ => True) :
    Prop :=
  ∀ s, s.Ready opening → P s → State.Tidy s (g s).2

namespace Grammar

/-- The grammars of the values behind a key or in a container, where there is room for the
containers that may be entered. -/
inductive ReadsValues [DecidableEq π] (s : State π) : Grammar π (Option (Value (Span π))) → Prop
  | anywhere : ReadsValues s value
  | within {room : Nat} (h : s.limit ≤ s.depth + room) : ReadsValues s (valueWithin (room + 1))

/-- Outside of edge groups, with `inner` for the values. -/
def Outside [DecidableEq π] (inner : Grammar π (Option (Value (Span π)))) (s : State π) : Prop :=
  s.inGroup = false ∧ ReadsValues s inner

/-- Outside of edge groups, with `inner` for the values one level deeper, unless that is too
deep. -/
def Around [DecidableEq π] (inner : Grammar π (Option (Value (Span π)))) (s : State π) : Prop :=
  s.inGroup = false ∧ (s.depth < s.limit → ReadsValues { s with depth := s.depth + 1 } inner)

/-- The parts that a key has so far have been read from the text. -/
def BehindParts (key : Key (Span π)) (s : State π) : Prop :=
  ∃ F p n, s.At F p [] ∧ n ≤ p.length ∧ key.PartsWithin F.cover n p.length

/-- The parts of the grammar, each behind the characters that it starts with, keep the rules.
Whatever reads a value or a map is called outside of edge groups only. -/
structure KeepsAllRules (π : Type) [DecidableEq π] : Prop where
  commentLine : ∀ text, KeepsRules (π := π) [] (Grammar.commentLine text)
  comment : KeepsRules (π := π) ['#'] Grammar.comment
  commentContent : KeepsRules (π := π) [] Grammar.commentContent
  blockComment : KeepsRules (π := π) ['"', '"', '"'] Grammar.blockComment
  block : KeepsRules (π := π) [] Grammar.block
  blockText : KeepsRules (π := π) ['|'] Grammar.blockText
  unquotedText : ∀ role ∈ [.key, .value (Grammar.substitution false)],
    KeepsRules (π := π) [] (Grammar.unquotedText role)
  doubleQuotedText : ∀ role ∈ [.key, .value (Grammar.substitution false)],
    KeepsRules (π := π) ['"'] (Grammar.doubleQuotedText role)
  singleQuotedText : KeepsRules (π := π) ['\''] Grammar.singleQuotedText
  text : ∀ role ∈ [.key, .value (Grammar.substitution false)],
    KeepsRules (π := π) [] (Grammar.text role)
  substitution : KeepsRules (π := π) ['$'] (Grammar.substitution false)
  spreadSubstitution : KeepsRules (π := π) ['.', '.', '.', '$'] (Grammar.substitution true)
  path : KeepsRules (π := π) [] Grammar.path
  edgeLine : ∀ start, KeepsRules (π := π) [] (Grammar.edgeLine start)
  edges : ∀ key : Key (Span π), KeepsRules [] (Grammar.edges key.path) (BehindParts key)
  edgeIndex : KeepsRules (π := π) ['['] Grammar.edgeIndex
  groupParts : ∀ key : Key (Span π), KeepsRules [] (Grammar.groupParts key) (BehindParts key)
  edgeGroup : ∀ (inner : Grammar π (Option (Value (Span π)))) key,
    KeepsRules [] (Grammar.edgeGroup inner key) fun s => Outside inner s ∧ BehindParts key s
  keyValue : ∀ (inner : Grammar π (Option (Value (Span π)))) key,
    KeepsRules [] (Grammar.keyValue inner key) fun s => Outside inner s ∧ BehindParts key s
  keyParts : ∀ (inner : Grammar π (Option (Value (Span π)))) key,
    KeepsRules [] (Grammar.keyParts inner key) fun s => Outside inner s ∧ BehindParts key s
  key : ∀ inner, KeepsRules (π := π) [] (Grammar.key inner) (Outside inner)
  skipContainer : ∀ start opening closing unterminated,
    KeepsRules (π := π) [] (Grammar.skipContainer start opening closing unterminated)
  trailingText : ∀ typeName closing fallback,
    KeepsRules (π := π) [] (Grammar.trailingText typeName closing fallback)
  entry : ∀ inner c, isBlank c = false →
    KeepsRules (π := π) [c] (Grammar.entry inner c) (Outside inner)
  item : ∀ inner c, isBlank c = false →
    KeepsRules (π := π) [c] (Grammar.item inner c) (Outside inner)
  map : ∀ inner, KeepsRules (π := π) ['{'] (Grammar.map inner) (Around inner)
  fileMap : ∀ inner, KeepsRules (π := π) [] (Grammar.fileMap inner) (Outside inner)
  sequence : ∀ inner, KeepsRules (π := π) ['['] (Grammar.sequence inner) (Around inner)
  value : ∀ inner, KeepsRules (π := π) [] inner (Outside inner)

end Grammar

/-! ## How they are kept -/

section

variable {opening : List Char} {g : Grammar π α}

theorem KeepsRules.of_ensures
    (hg : ∀ (F : Frame π) p, ∃ n R, Grammar.Ensures (State.At F (opening.reverse ++ p) []) g
      (Grammar.Onward F n R)) : KeepsRules opening g := by
  intro s ⟨F, p, hs⟩ _
  obtain ⟨n, R, h⟩ := hg F p
  obtain ⟨q, -, hs', -⟩ := h s hs
  exact hs.tidy hs'

namespace Grammar

theorem keepsRules_parts {g : Key (Span π) → Grammar π α} {key : Key (Span π)}
    (hg : ∀ (F : Frame π) n p, n ≤ p.length → key.PartsWithin F.cover n p.length →
      ∃ m R, Ensures (State.At F p []) (g key) (Onward F m R)) :
    KeepsRules [] (g key) (BehindParts key) := by
  intro s _ ⟨F, p, n, hs, hn, hkey⟩
  obtain ⟨m, R, h⟩ := hg F n p hn hkey
  obtain ⟨q, -, hs', -⟩ := h s hs
  exact hs.tidy hs'

theorem role_reads {F : Frame π} {role : Role π}
    (h : role ∈ [.key, .value (substitution false)]) : role.Reads F := by
  simp only [List.mem_cons, List.not_mem_nil, or_false] at h
  rcases h with rfl | rfl
  · exact Role.key_reads
  · exact Role.value_reads

variable [DecidableEq π] {inner : Grammar π (Option (Value (Span π)))}

theorem ReadsValues.reads {F : Frame π} {p : List Char} {s : State π} (h : ReadsValues s inner)
    (hs : s.At F p []) (hgroup : F.inGroup = false) : Reads F (Value.Within F.cover) inner := by
  cases h with
  | anywhere => exact value_reads hgroup
  | @within room hroom =>
    rw [hs.limit, hs.depth] at hroom
    exact valueWithin_reads room hgroup hroom

theorem keepsRules_outside
    (hg : ∀ (F : Frame π) p, F.inGroup = false → Reads F (Value.Within F.cover) inner →
      ∃ n R, Ensures (State.At F (opening.reverse ++ p) []) g (Onward F n R)) :
    KeepsRules opening g (Outside inner) := by
  intro s ⟨F, p, hs⟩ ⟨hgroup, hinner⟩
  have hF : F.inGroup = false := hs.inGroup ▸ hgroup
  obtain ⟨n, R, h⟩ := hg F p hF (hinner.reads hs hF)
  obtain ⟨q, -, hs', -⟩ := h s hs
  exact hs.tidy hs'

theorem keepsRules_around
    (hg : ∀ (F : Frame π) p, F.inGroup = false →
      (F.depth < F.limit → Reads F.deeper (Value.Within F.cover) inner) →
      ∃ n R, Ensures (State.At F (opening.reverse ++ p) []) g (Onward F n R)) :
    KeepsRules opening g (Around inner) := by
  intro s ⟨F, p, hs⟩ ⟨hgroup, hinner⟩
  have hF : F.inGroup = false := hs.inGroup ▸ hgroup
  have hdeeper : F.depth < F.limit → Reads F.deeper (Value.Within F.cover) inner := by
    intro hdepth
    rw [← hs.depth, ← hs.limit] at hdepth
    have hat : State.At F.deeper _ [] { s with depth := s.depth + 1 } :=
      ⟨hs.reader, by simp [Frame.deeper, hs.depth], hs.limit, hs.inGroup⟩
    exact (hinner hdepth).reads hat hF
  obtain ⟨n, R, h⟩ := hg F p hF hdeeper
  obtain ⟨q, -, hs', -⟩ := h s hs
  exact hs.tidy hs'

theorem keepsRules_readsParts {g : Key (Span π) → Grammar π (Key (Span π))} {key : Key (Span π)}
    (hg : ∀ F : Frame π, F.inGroup = false → Reads F (Value.Within F.cover) inner →
      ReadsParts F g) :
    KeepsRules [] (g key) fun s => Outside inner s ∧ BehindParts key s := by
  intro s _ ⟨⟨hgroup, hinner⟩, F, p, n, hs, hn, hkey⟩
  have hF : F.inGroup = false := hs.inGroup ▸ hgroup
  obtain ⟨q, -, hs', -⟩ := hg F hF (hinner.reads hs hF) n key p hn hkey s hs
  exact hs.tidy hs'

theorem keepsAllRules : KeepsAllRules π where
  commentLine text := .of_ensures fun _ p => ⟨_, _, commentLine_reads text p⟩
  comment := .of_ensures fun _ p => ⟨_, _, comment_reads p⟩
  commentContent := .of_ensures fun _ p => ⟨_, _, commentContent_reads p⟩
  blockComment := .of_ensures fun _ p => ⟨_, _, blockComment_reads p⟩
  block := .of_ensures fun _ p => ⟨_, _, block_reads p⟩
  blockText := .of_ensures fun _ p => ⟨_, _, blockText_reads p⟩
  unquotedText _ h := .of_ensures fun _ p => ⟨_, _, unquotedText_reads (role_reads h) p⟩
  doubleQuotedText _ h := .of_ensures fun _ p => ⟨_, _, doubleQuotedText_reads (role_reads h) p⟩
  singleQuotedText := .of_ensures fun _ p => ⟨_, _, singleQuotedText_reads p⟩
  text _ h := .of_ensures fun _ p => ⟨_, _, text_reads (role_reads h) p⟩
  substitution := .of_ensures fun _ p => ⟨_, _, substitution_reads p⟩
  spreadSubstitution := .of_ensures fun _ p => ⟨_, _, spreadSubstitution_reads p⟩
  path := .of_ensures fun _ p => ⟨_, _, path_reads p⟩
  edgeLine start := .of_ensures fun _ p => ⟨_, _, edgeLine_reads start p⟩
  edges _ := keepsRules_parts (g := fun key => edges key.path) fun _ _ _ hn hkey =>
    ⟨_, _, edges_reads hn hkey.1⟩
  edgeIndex := .of_ensures fun _ p => ⟨_, _, edgeIndex_reads p⟩
  groupParts _ := keepsRules_parts fun _ _ _ hn hkey => ⟨_, _, groupParts_reads hn hkey⟩
  edgeGroup _ _ := keepsRules_readsParts fun _ => edgeGroup_reads
  keyValue _ _ := keepsRules_readsParts fun _ _ => keyValue_reads
  keyParts _ _ := keepsRules_readsParts fun _ => keyParts_reads
  key _ := keepsRules_outside fun _ p hgroup hinner => ⟨_, _, key_reads hgroup hinner p⟩
  skipContainer start opening closing unterminated :=
    .of_ensures fun _ p => ⟨_, _, skipContainer_reads start opening closing unterminated p⟩
  trailingText typeName closing fallback :=
    .of_ensures fun _ p => ⟨_, _, trailingText_reads typeName closing fallback p⟩
  entry _ _ hc := keepsRules_outside fun _ p hgroup hinner => ⟨_, _, entry_reads hgroup hinner hc p⟩
  item _ _ hc := keepsRules_outside fun _ p _ hinner => ⟨_, _, item_reads hinner hc p⟩
  map _ := keepsRules_around fun _ p hgroup hinner => ⟨_, _, map_reads hgroup hinner p⟩
  fileMap _ := keepsRules_outside fun _ p hgroup hinner => ⟨_, _, fileMap_reads hgroup hinner p⟩
  sequence _ := keepsRules_around fun _ p _ hinner => ⟨_, _, sequence_reads hinner p⟩
  value _ := keepsRules_outside fun _ p _ hinner => ⟨_, _, hinner p⟩

end Grammar

end

/-- **No rule is broken**: over every source, in either counting and with any limit, whole files and
single paths, keys and values are read by the rules, and so is every part they consist of. -/
theorem rules_kept : Grammar.KeepsAllRules Position ∧
    ∀ (counting : Counting) (source : List Delivery) (limit : Nat),
      let start := State.ofSource counting.meter source limit
      State.Tidy start (readFile counting.meter source limit).2 ∧
      State.Tidy start (Grammar.path start).2 ∧
      State.Tidy start (Grammar.key Grammar.value start).2 ∧
      State.Tidy start (Grammar.value start).2 := by
  refine ⟨Grammar.keepsAllRules, fun counting source limit => ?_⟩
  have hrules := Grammar.keepsAllRules (π := Position)
  have hat := State.ofSource_at counting.meter_lawful source limit
  have hready : (State.ofSource counting.meter source limit).Ready [] := ⟨_, [], hat⟩
  have houtside : Grammar.Outside Grammar.value (State.ofSource counting.meter source limit) :=
    ⟨rfl, .anywhere⟩
  exact ⟨hrules.fileMap _ _ hready houtside, hrules.path _ hready trivial,
    hrules.key _ _ hready houtside, hrules.value _ _ hready houtside⟩

end Diagram
