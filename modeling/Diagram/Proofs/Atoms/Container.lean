import Diagram.Proofs.Atoms.Basic
import Diagram.Proofs.Atoms.Text
import Diagram.Proofs.Sound.Container
import Mathlib.Tactic.SplitIfs

/-!
What holds of all the texts, substitutions and scalars of a tree. Where each of them has a property
as soon as it is read, wherever on the tape that is, all of those in the tree have it.
-/
namespace Diagram.Grammar

variable {π α β σ : Type} {F : Frame π}

/-! ## Parts that are read anywhere on a tape -/

/-- Wherever on the tape `g` starts, its result has `R`, and nothing is looked at then. -/
def Yields (F : Frame π) (R : α → Prop) (g : Grammar π α) : Prop :=
  ∀ p, Ensures (State.At F p []) g (Onward F 0 fun a _ => R a)

namespace Yields

variable {R : α → Prop} {Q : β → Prop}

theorem done {b : β} (h : Q b) : Yields F Q (pure b) :=
  fun _ => .done (Nat.zero_le _) h

theorem call {g : Grammar π α} {f : α → Grammar π β} (hg : Yields F R g)
    (hf : ∀ a, R a → Yields F Q (f a)) : Yields F Q (g >>= f) :=
  fun p => (hg p).call fun a q _ ha => hf a ha q

/-- What is known of a result besides where it was read. -/
theorem of_reads {g : Grammar π α} {I : List Char → α → Nat → Prop}
    (hreads : ∀ p, Ensures (State.At F p []) g (Onward F p.length (I p)))
    (h : ∀ p, Ensures (State.At F p []) g fun a _ => R a) : Yields F R g := by
  intro p s hs
  obtain ⟨q, -, hat, -⟩ := hreads p s hs
  exact ⟨q, Nat.zero_le _, hat, h p s hs⟩

theorem nested {g : Grammar π α} (hg : Yields F.deeper R g) : Yields F R (Grammar.nested g) := by
  intro p s hs
  obtain ⟨q, -, hat, hR⟩ := hg p { s with depth := s.depth + 1 }
    ⟨hs.reader, congrArg (· + 1) hs.depth, hs.limit, hs.inGroup⟩
  rw [nested_apply hat.depth_ne_zero]
  exact ⟨q, Nat.zero_le _, ⟨hat.reader, congrArg (· - 1) hat.depth, hat.limit, hat.inGroup⟩, hR⟩

/-- What every step keeps, the whole repetition keeps. -/
theorem repeating {step : σ → Grammar π (Next σ)} {I : Nat → σ → Nat → Prop} {J : σ → Prop} {g : σ}
    (hreads : ∀ n g p, I n g p.length →
      Ensures (State.At F p []) (step g) (Steps F p.length (I n) (I n)))
    (hstep : ∀ g, J g → ∀ p, Ensures (State.At F p []) (step g) fun next _ => J next.gathered)
    (hI : ∀ n, I n g n) (hJ : J g) : Yields F J (repeating step g) := by
  intro p
  refine (repeating_ensures (I := fun g i => I p.length g i ∧ J g)
    (Q := fun g i => I p.length g i ∧ J g) (fun g q h s hs => ?_) ⟨hI _, hJ⟩).tail (Nat.zero_le _)
      fun _ _ _ h => h.2
  have hreads := hreads p.length g q h.1 s hs
  have hstep := hstep g h.2 q s hs
  cases hnext : (step g s).1 with
  | again g' | stop g' =>
    rw [hnext] at hreads hstep
    exact Onward.mono (R := fun g i => I p.length g i ∧ J g) hreads (Nat.le_refl _)
      fun _ _ hI => ⟨hI, hstep⟩

end Yields

/-! ## Texts -/

/-- A text that is not taken for another scalar stays as it is. -/
theorem scalarOf_eq_text {ρ : Type} {t t' : Text ρ} (h : scalarOf t = .text t') : t' = t := by
  unfold scalarOf at h
  split at h
  · split_ifs at h
    split at h
    · cases h
    · exact (Scalar.text.inj h).symm
  · exact (Scalar.text.inj h).symm

/-- On the tape `T`, every name and every scalar that is read has `A`, and so has every
substitution. -/
structure Fits (T : Tape π) (A : Atom (Span π) → Prop) : Prop where
  name : ∀ {F : Frame π}, F.toTape = T → ∀ p,
    Ensures (State.At F p []) (text .key) fun r _ => ∀ t ∈ r, A (.name t)
  scalar : ∀ {F : Frame π}, F.toTape = T → ∀ p,
    Ensures (State.At F p []) valueText fun r _ => ∀ t ∈ r, A (.scalar (scalarOf t))
  insertion : ∀ x, x.spread = false → A (.insertion x)
  spread : ∀ x, x.spread = true → A (.spread x)

variable {A : Atom (Span π) → Prop}

theorem Fits.trivial {T : Tape π} : Fits T fun _ => True :=
  ⟨fun _ _ _ _ _ _ => True.intro, fun _ _ _ _ _ _ => True.intro, fun _ _ => True.intro,
    fun _ _ => True.intro⟩

/-- All that is inside of a text has `A` if all that is inside of its substitutions has. -/
theorem inside_kept : Gathered.Kept (fun x => A (.insertion x) ∧ Atom.All A x.atoms)
    fun g => Atom.All A (Piece.atomsAll g.pieces) where
  empty := Atom.all_nil
  push h _ := h
  escape h := h
  substitution {g x} h hx := by
    have hflush : Atom.All A (Piece.atomsAll g.flush.pieces) := by
      unfold Gathered.flush
      split
      · exact h
      · simpa [Piece.atomsAll, Piece.atoms] using h
    simpa [Gathered.pushSubstitution, Piece.atomsAll, Piece.atoms] using
      And.intro hx.1 (And.intro hx.2 hflush)

theorem Gathered.all_finish {g : Gathered π} :
    Atom.All A (Piece.atomsAll g.finish) ↔ Atom.All A (Piece.atomsAll g.pieces) := by
  rw [Gathered.finish, Atom.all_reverse_pieces, Gathered.flush]
  split
  · rfl
  · simp [Piece.atomsAll, Piece.atoms]

theorem text_inside {role : Role π}
    (hrole : role.Inserts F fun x => A (.insertion x) ∧ Atom.All A x.atoms) (p : List Char) :
    Ensures (State.At F p []) (text role) fun r _ => ∀ t ∈ r, Atom.All A t.atoms := by
  refine text_ensures (fun p c _ _ => ?_) (fun p => ?_) (fun _ _ => Atom.all_nil)
    (fun _ _ _ _ => Atom.all_nil) p
  · refine (unquotedText_keeps inside_kept.unquoted hrole Atom.all_nil).weaken fun r _ h t ht => ?_
    obtain ⟨u, i, hu, -, rfl⟩ := h t ht
    exact Gathered.all_finish.mpr hu
  · refine (doubleQuotedText_keeps inside_kept hrole p).weaken fun t _ h => ?_
    obtain ⟨g, range, hg, rfl⟩ := h
    exact Gathered.all_finish.mpr hg

section

variable (hfits : Fits F.toTape A)

include hfits

theorem name_yields :
    Yields F (fun r => ∀ t ∈ r, A (.name t) ∧ Atom.All A t.atoms) (text .key) := by
  refine .of_reads (fun p => text_reads Role.key_reads p) fun p s hs t ht => ⟨?_, ?_⟩
  · exact hfits.name rfl p s hs t ht
  · exact text_inside Role.key_inserts p s hs t ht

theorem pathSegment_keeps {segments : List (Text (Span π))}
    (hsegments : Atom.All A (Text.atomsAll segments)) (p : List Char) :
    Ensures (State.At F p []) (pathSegment segments) fun next _ =>
      Atom.All A (Text.atomsAll next.gathered) := by
  refine .peekOnLine (.pure fun _ _ => hsegments) fun b c _ =>
    .retreat (.ite (fun _ => .pure fun _ _ => hsegments) fun _ => ?_)
  refine (name_yields hfits p).call fun r q _ hr => ?_
  cases r with
  | none => exact .pure fun _ _ => hsegments
  | some t =>
    have hmore : Atom.All A (Text.atomsAll (t :: segments)) := by
      simpa [Text.atomsAll, and_assoc] using And.intro (hr t rfl) hsegments
    refine .peekOnLine (.pure fun _ _ => hmore) fun b c _ => .ite (fun _ => .accept ?_) fun _ =>
      .retreat ?_ <;> exact .pure fun _ _ => hmore

/-- **Paths**: the names in a path have `A`. -/
theorem path_yields : Yields F (fun r => Atom.All A (KeyPath.atoms? r)) path := by
  have hsegments : Yields F (fun segments => Atom.All A (Text.atomsAll segments))
      (repeating pathSegment []) :=
    .repeating (fun _ _ _ h => pathSegment_reads h) (fun _ h => pathSegment_keeps hfits h)
      Nat.le_refl Atom.all_nil
  refine fun p => .here ((hsegments p).call fun segments q _ h => ?_)
  refine .ite (fun _ => .done (Nat.zero_le _) Atom.all_nil) fun _ =>
    .here (.done (Nat.zero_le _) ?_)
  simpa [KeyPath.atoms?, KeyPath.atoms] using Atom.all_reverse_names.mpr h

theorem path_onward (p : List Char) : Ensures (State.At F p []) path
    (Onward F p.length fun r _ => Atom.All A (KeyPath.atoms? r)) := by
  intro s hs
  obtain ⟨q, hq, hat, -⟩ := path_reads p s hs
  obtain ⟨-, -, -, hr⟩ := path_yields hfits p s hs
  exact ⟨q, hq, hat, hr⟩

/-- Where there is no substitution, nothing has been read. -/
theorem substitutionFrom_inserts (start : π) (spread : Bool) (p : List Char) :
    Ensures (State.At F p []) (substitutionFrom start spread)
      (Inserts F (fun x => x.spread = spread ∧ Atom.All A x.atoms) p) := by
  refine .peekOnLine (.pure fun _ hs => hs) fun b c _ => .ite (fun _ => ?_) fun _ => .accept ?_
  · exact .retreat (.reportToReach (.pure fun _ hs => hs))
  refine .call (path_onward hfits _) fun path q hq hpath =>
    .call (substitutionEnd_reads start q) fun _ q' hq' _ => .here (.pure fun s hs => ?_)
  have hpq : p.length ≤ q'.length := by
    simp at hq
    omega
  refine ⟨⟨rfl, ?_⟩, q', hpq, hs⟩
  cases path with
  | none => exact Atom.all_nil
  | some path =>
    have hnames : Atom.All A path.atoms := by simpa [KeyPath.atoms?] using hpath
    exact hnames

theorem Role.value_inserts : (Role.value (substitution false)).Inserts F fun x =>
    A (.insertion x) ∧ Atom.All A x.atoms := by
  intro p
  refine .placeOf (by decide) ((substitutionFrom_inserts hfits _ false _).weaken fun r s h => ?_)
  cases r with
  | none => exact h
  | some x => exact ⟨⟨hfits.insertion x h.1.1, h.1.2⟩, h.2⟩

theorem spread_ensures (p : List Char) :
    Ensures (State.At F ('$' :: '.' :: '.' :: '.' :: p) []) (substitution true) fun r _ =>
      ∀ x ∈ r, A (.spread x) ∧ Atom.All A x.atoms := by
  refine .placeOf (by decide) (.beforeAll (b := ['$']) (p := p) rfl rfl (by simp)
    ((substitutionFrom_inserts hfits _ true _).weaken fun r s h x hx => ?_))
  obtain rfl := Option.mem_def.mp hx
  exact ⟨hfits.spread x h.1.1, h.1.2⟩

/-- All that is inside of a scalar is inside of its text. -/
theorem scalar_yields :
    Yields F (fun r => ∀ t ∈ r, Atom.All A (scalarOf t).atoms) valueText := by
  refine .of_reads (fun p => valueText_reads p) fun p s hs t ht => ?_
  have hscalar := hfits.scalar rfl p s hs t ht
  have hinside := text_inside (Role.value_inserts hfits) p s hs t ht
  cases htext : scalarOf t with
  | text t' =>
    rw [htext] at hscalar
    obtain rfl := scalarOf_eq_text htext
    exact Atom.all_cons.mpr ⟨hscalar, hinside⟩
  | null _ | boolean _ _ | number _ _ _ =>
    rw [htext] at hscalar
    exact Atom.all_cons.mpr ⟨hscalar, Atom.all_nil⟩

end

/-! ## Edges -/

theorem edgeStart_stays {source : Option (KeyPath (Span π))} {p b : List Char} {c : Char}
    (hc : c ≠ '\n') : Ensures (State.At F p (c :: b)) (edgeStart source c) fun _ =>
      State.At F p (c :: b) := by
  cases source with
  | some path => exact .pure fun _ hs => hs
  | none => exact .lookedPlace (.before hc (.report (.pure fun _ hs => hs)))

/-- The atoms of the paths in a chain of edges have `A`, the next source among them. -/
def Chain.All (A : Atom (Span π) → Prop) (chain : Chain π) : Prop :=
  Atom.All A (chain.edges.flatMap Edge.atoms) ∧ Atom.All A (KeyPath.atoms? chain.source)

section

variable (hfits : Fits F.toTape A)

include hfits

theorem edgeTarget_keeps {chain : Chain π} (hchain : chain.All A) (head : Arrowhead) (start : π)
    (targetHead : Arrowhead) {n : Nat} {p : List Char} (hn : n < p.length) :
    Ensures (State.At F p []) (edgeTarget chain head start targetHead)
      (Steps F n (fun chain _ => chain.All A) fun chain _ => chain.All A) := by
  have hmore : ∀ {target : Option (KeyPath (Span π))} {range : Span π},
      Atom.All A (KeyPath.atoms? target) →
        Chain.All A ⟨⟨range, chain.source, head, target, targetHead⟩ :: chain.edges, target⟩ :=
    fun htarget => ⟨Atom.all_append.mpr ⟨Atom.all_append.mpr ⟨hchain.2, htarget⟩, hchain.1⟩,
      htarget⟩
  refine .here (.call (path_onward hfits p) fun target q hq htarget => ?_)
  cases target with
  | none => exact .reportToHere (Steps.again (by omega) (hmore htarget))
  | some target => exact Steps.again (by omega) (hmore htarget)

theorem nextEdge_keeps {chain : Chain π} (hchain : chain.All A) (p : List Char) :
    Ensures (State.At F p []) (nextEdge chain)
      (Steps F p.length (fun chain _ => chain.All A) fun chain _ => chain.All A) := by
  refine .peekOnLine (Steps.stop (Nat.le_refl _) hchain) fun b c hc => ?_
  dsimp only
  rw [List.append_nil]
  cases sourceHead? c with
  | none => exact .retreat (Steps.stop (Nat.le_refl _) hchain)
  | some head =>
    refine .bind (edgeStart_stays (ne_newline_of_visible hc)) fun start => .accept ?_
    refine .call (edgeLine_reads start _) fun targetHead q hq _ => ?_
    simp at hq
    cases targetHead with
    | none => exact Steps.stop (by omega) hchain
    | some targetHead => exact edgeTarget_keeps hfits hchain head start targetHead (by omega)

theorem edges_yields {source : Option (KeyPath (Span π))}
    (hsource : Atom.All A (KeyPath.atoms? source)) :
    Yields F (fun es => Atom.All A (es.flatMap Edge.atoms)) (edges source) := by
  refine fun p => .call (repeating_ensures (fun _ p h => nextEdge_keeps hfits h p)
    (g := ⟨[], source⟩) ⟨Atom.all_nil, hsource⟩) fun chain q _ h => .done (Nat.zero_le _) ?_
  simpa only [Atom.All, List.mem_flatMap, List.mem_reverse] using h.1

end

/-! ## Keys -/

theorem Key.all_empty (range : Span π) : Atom.All A (Key.empty range).atoms := by
  simp [Key.all_atoms, Key.empty, KeyPath.atoms?, Value.atoms?]

/-- What a key is read on by: its atoms have `A` if those that are known already have. -/
def ReadsOn (F : Frame π) (A : Atom (Span π) → Prop)
    (g : Key (Span π) → Grammar π (Key (Span π))) : Prop :=
  ∀ key, Atom.All A key.atoms → Yields F (fun k => Atom.All A k.atoms) (g key)

section

variable {value : Grammar π (Option (Value (Span π)))}
  (hvalue : Yields F (fun v => Atom.All A (Value.atoms? v)) value)

include hvalue

theorem mapBehind_yields {key : Key (Span π)} (hkey : Atom.All A key.atoms)
    {scalar : Scalar (Span π)} (hscalar : Atom.All A scalar.atoms) :
    Yields F (fun k => Atom.All A k.atoms) (mapBehind value key scalar) := by
  obtain ⟨hpath, hedges, hedgePath, hprimary, -⟩ := Key.all_atoms.mp hkey
  have hplain : Atom.All A ({ key with value := some (.scalar scalar) } : Key (Span π)).atoms :=
    Key.all_atoms.mpr ⟨hpath, hedges, hedgePath, hprimary, hscalar⟩
  refine fun p => .peekOnLine (.done (Nat.zero_le _) hplain) fun b c _ => .ite ?_ fun _ =>
    .retreat (.done (Nat.zero_le _) hplain)
  rintro rfl
  refine .accept (.putBack (by decide) ((hvalue _).call fun v q _ hv => .done (Nat.zero_le _) ?_))
  exact Key.all_atoms.mpr ⟨hpath, hedges, hedgePath, by simpa using hscalar, hv⟩

theorem valueOfKey_yields : ReadsOn F A (valueOfKey value) := by
  intro key hkey
  obtain ⟨hpath, hedges, hedgePath, hprimary, -⟩ := Key.all_atoms.mp hkey
  have hput : ∀ {v : Option (Value (Span π))}, Atom.All A (Value.atoms? v) →
      Yields F (fun k => Atom.All A k.atoms) (pure { key with value := v }) :=
    fun hv => .done (Key.all_atoms.mpr ⟨hpath, hedges, hedgePath, hprimary, hv⟩)
  refine .call hvalue fun v hv => ?_
  match v with
  | none => exact fun p => .here (.reportAtColon (hput hv p))
  | some (.scalar scalar) => exact mapBehind_yields hvalue hkey hv
  | some (.sequence s) => exact hput hv
  | some (.map m) => exact hput hv

theorem keyValue_yields : ReadsOn F A (keyValue value) := by
  intro key hkey p
  have hdone := Yields.done (F := F) (Q := fun k : Key (Span π) => Atom.All A k.atoms) hkey p
  refine .peekOnLine hdone fun b c _ => .ite (fun _ => .retreat ?_) fun _ =>
    .ite (fun _ => .accept (.whenever (fun _ => .reportToHere_stays) ?_)) fun _ => .retreat hdone
  · exact .ite (fun _ => valueOfKey_yields hvalue key hkey p) fun _ => hdone
  · exact valueOfKey_yields hvalue key hkey _

end

section

variable (hfits : Fits F.toTape A)

include hfits

theorem groupPath_yields {key : Key (Span π)} (hkey : Atom.All A key.atoms) :
    Yields F (fun r => Atom.All A r.1.atoms) (groupPath key) := by
  obtain ⟨hpath, hedges, -, hprimary, hinside⟩ := Key.all_atoms.mp hkey
  refine fun p => .acceptBehind (fun q _ => ?_) (.done (Nat.zero_le _) hkey)
    (.done (Nat.zero_le _) hkey)
  refine (path_yields hfits _).call fun edgePath _ _ hedgePath => .done (Nat.zero_le _) ?_
  exact Key.all_atoms.mpr ⟨hpath, hedges, hedgePath, hprimary, hinside⟩

theorem groupParts_yields {key : Key (Span π)} (hkey : Atom.All A key.atoms) :
    Yields F (fun r => Atom.All A r.1.atoms) (groupParts key) := by
  obtain ⟨hpath, -, hedgePath, hprimary, hinside⟩ := Key.all_atoms.mp hkey
  refine .call (path_yields hfits) fun source hsource => .call (edges_yields hfits hsource)
    fun edges hedges => ?_
  have hkey : Atom.All A ({ key with edges } : Key (Span π)).atoms :=
    Key.all_atoms.mpr ⟨hpath, hedges, hedgePath, hprimary, hinside⟩
  have hopen : Yields F (fun r : Key (Span π) × Bool => Atom.All A r.1.atoms)
      (do
        reportToHere .unterminatedEdgeGroup key.range.start
        pure ({ key with edges }, false)) :=
    fun p => .reportToHere (.done (Nat.zero_le _) hkey)
  refine fun p => .acceptBehind (fun q _ => ?_) (hopen p) (hopen p)
  refine .acceptBehind (fun q _ => ?_) (groupPath_yields hfits hkey _) (.done (Nat.zero_le _) hkey)
  refine .call (edgeIndex_reads q) fun index q _ _ => ?_
  -- the index holds no texts
  have hindex : Atom.All A ({ key with edges, edgeIndex := index } : Key (Span π)).atoms :=
    Key.all_atoms.mpr (Key.all_atoms.mp hkey)
  exact groupPath_yields hfits hindex q

variable (hgroup : F.inGroup = false) {value : Grammar π (Option (Value (Span π)))}
  (hvalue : Yields F (fun v => Atom.All A (Value.atoms? v)) value)

include hgroup hvalue

theorem edgeGroup_yields : ReadsOn F A (edgeGroup value) := by
  intro key hkey p
  refine .setGroup ((groupParts_yields (F := F.grouped true) hfits hkey p).call fun r q _ hr =>
    .setGroup ?_)
  rw [Frame.grouped_grouped hgroup]
  exact .ite (fun _ => keyValue_yields hvalue r.1 hr q) fun _ => .done (Nat.zero_le _) hr

theorem keyBehindPath_yields : ReadsOn F A (keyBehindPath value) := by
  intro key hkey p
  obtain ⟨hpath, -, hedgePath, hprimary, hinside⟩ := Key.all_atoms.mp hkey
  refine .peekOnLine (.done (Nat.zero_le _) hkey) fun b c _ =>
    .ite (fun _ => .accept (edgeGroup_yields hfits hgroup hvalue key hkey _)) fun _ =>
      .ite (fun _ => .retreat ?_) fun _ => .retreat (keyValue_yields hvalue key hkey p)
  refine (edges_yields hfits hpath p).call fun edges q _ hedges => keyValue_yields hvalue _ ?_ q
  exact Key.all_atoms.mpr ⟨Atom.all_nil, hedges, hedgePath, hprimary, hinside⟩

theorem keyBehindAmpersand_yields : ReadsOn F A (keyBehindAmpersand value) := by
  intro key hkey p
  obtain ⟨-, hedges, hedgePath, hprimary, hinside⟩ := Key.all_atoms.mp hkey
  refine .peek (.done (Nat.zero_le _) hkey) fun c =>
    .ite (fun _ => .accept (edgeGroup_yields hfits hgroup hvalue key hkey _)) fun _ => .retreat ?_
  refine (path_yields hfits p).call fun path q _ hpath => ?_
  refine keyBehindPath_yields hfits hgroup hvalue _ ?_ q
  exact Key.all_atoms.mpr ⟨hpath, hedges, hedgePath, hprimary, hinside⟩

theorem keyParts_yields : ReadsOn F A (keyParts value) := by
  intro key hkey p
  have hread := keyBehindAmpersand_yields hfits hgroup hvalue
  refine .peek (.done (Nat.zero_le _) hkey) fun c => .ite (fun _ => .accept ?_) fun _ =>
    .retreat (hread key hkey p)
  -- the ampersand holds no text
  have hinside := Key.all_atoms.mp hkey
  exact hread { key with ampersand := true } (Key.all_atoms.mpr hinside) _

/-- **Keys**: all that a key holds has `A`. -/
theorem key_yields : Yields F (fun k => Atom.All A (k.toList.flatMap Key.atoms)) (key value) := by
  refine fun p => .here ((keyParts_yields hfits hgroup hvalue _ (Key.all_empty _) p).call
    fun k q _ hk => .here (.ite (fun _ => .done (Nat.zero_le _) ?_) fun _ =>
      .done (Nat.zero_le _) Atom.all_nil))
  have hinside := Key.all_atoms.mp hk
  dsimp only
  rw [Option.toList_some, List.flatMap_singleton]
  exact Key.all_atoms.mpr hinside

end

/-! ## Maps and sequences -/

/-- The atoms of a remark, in the map or the sequence that it is read in. -/
def Remark.atoms {ρ : Type} : Remark ρ → List (Atom ρ)
  | .comment _ | .blockComment _ => []
  | .substitution s => .spread s :: s.atoms

theorem Remark.atoms_toEntry {ρ : Type} (r : Option (Remark ρ)) :
    Entry.atomsAll (r.map Remark.toEntry).toList = r.toList.flatMap Remark.atoms := by
  rw [Entry.atomsAll_eq]
  cases r with
  | none => rfl
  | some r => cases r <;> rfl

theorem Remark.atoms_toItem {ρ : Type} (r : Option (Remark ρ)) :
    Item.atomsAll (r.map Remark.toItem).toList = r.toList.flatMap Remark.atoms := by
  rw [Item.atomsAll_eq]
  cases r with
  | none => rfl
  | some r => cases r <;> rfl

/-- In a remark, only a substitution that spreads holds text. -/
theorem Remark.all_atoms {r : Option (Remark (Span π))}
    (h : ∀ x ∈ r, x.Spreads fun s => A (.spread s) ∧ Atom.All A s.atoms) :
    Atom.All A (r.toList.flatMap Remark.atoms) := by
  match r with
  | none | some (.comment _) | some (.blockComment _) => exact Atom.all_nil
  | some (.substitution s) => exact Atom.all_append.mpr ⟨Atom.all_cons.mpr (h _ rfl), Atom.all_nil⟩

section

variable (hfits : Fits F.toTape A) {value : Grammar π (Option (Value (Span π)))}
  (hvalue : Yields F (fun v => Atom.All A (Value.atoms? v)) value)

include hfits hvalue

theorem entry_keeps (hgroup : F.inGroup = false) {c : Char} (hc : isBlank c = false)
    (p : List Char) : Ensures (State.At F (c :: p) []) (entry value c) fun e _ =>
      Atom.All A (Entry.atomsAll e.toList) := by
  refine .nodeStartSpread (spread_ensures hfits) hc (fun r q _ hr => .pure fun _ _ => ?_) fun _ =>
    (key_yields hfits hgroup hvalue p).call fun k q _ hk => .pure fun _ _ => ?_
  · rw [Remark.atoms_toEntry]
    exact Remark.all_atoms fun x hx => (hr x hx).2
  · cases k with
    | none => exact Atom.all_nil
    | some k => simpa [Entry.atomsAll, Entry.atoms] using hk

theorem item_keeps {c : Char} (hc : isBlank c = false) (p : List Char) :
    Ensures (State.At F (c :: p) []) (item value c) fun x _ =>
      Atom.All A (Item.atomsAll x.toList) := by
  refine .nodeStartSpread (spread_ensures hfits) hc (fun r q _ hr => .pure fun _ _ => ?_) fun _ =>
    (hvalue p).call fun v q _ hv => ?_
  · rw [Remark.atoms_toItem]
    exact Remark.all_atoms fun x hx => (hr x hx).2
  · cases v with
    | some v => exact .pure fun _ _ => Atom.all_append.mpr ⟨hv, Atom.all_nil⟩
    | none =>
      refine .here (.read (.reportToHere ?_) fun _ => .reportToHere ?_) <;>
        exact .pure fun _ _ => Atom.all_nil

variable [DecidableEq π] (hreads : Reads F (Value.Within F.cover) value)

include hreads

theorem entryLine_keeps (hgroup : F.inGroup = false) {entries : List (Entry (Span π))}
    (hentries : Atom.All A (Entry.atomsAll entries)) {c : Char} (hc : isBlank c = false)
    (p : List Char) : Ensures (State.At F (c :: p) []) (entryLine value entries c) fun next _ =>
      Atom.All A (Entry.atomsAll next.gathered) := by
  have hentry : Ensures (State.At F (c :: p) []) (entry value c)
      (Onward F p.length fun e _ => Atom.All A (Entry.atomsAll e.toList)) := by
    intro s hs
    obtain ⟨q, hq, hat, -⟩ := entry_reads hgroup hreads hc p s hs
    exact ⟨q, hq, hat, entry_keeps hfits hvalue hgroup hc p s hs⟩
  refine .call hentry fun e q _ he => ?_
  have hmore : Atom.All A (Entry.atomsAll (e.toList ++ entries)) := by
    simpa [Entry.atomsAll_eq] using And.intro he hentries
  split
  · exact .pure fun _ _ => hmore
  · exact .call (trailingText_reads _ _ _ q) fun _ _ _ _ => .pure fun _ _ => hmore

theorem mapStep_keeps (hgroup : F.inGroup = false) (opened : Option π)
    {entries : List (Entry (Span π))} (hentries : Atom.All A (Entry.atomsAll entries))
    (p : List Char) : Ensures (State.At F p []) (mapStep value opened entries) fun next _ =>
      Atom.All A (Entry.atomsAll next.gathered) := by
  have hdone : ∀ {P : State π → Prop} {next : Next (List (Entry (Span π)))},
      next.gathered = entries → Ensures P (pure next) fun next _ =>
        Atom.All A (Entry.atomsAll next.gathered) := by
    rintro P next rfl
    exact .pure fun _ _ => hentries
  refine .readVisible (fun _ => ?_) fun b c hc => .ite (fun _ => hdone rfl) fun _ =>
    .ite ?_ fun _ => entryLine_keeps hfits hvalue hreads hgroup hentries hc _
  · cases opened with
    | none => exact hdone rfl
    | some start => exact .reportToReach (hdone rfl)
  · rintro rfl
    refine .ite (fun _ => hdone rfl) fun _ => ?_
    rw [reportStrayMapEnd, bind_assoc]
    exact .placeOf (by decide) (.reportToHere (hdone rfl))

theorem itemLine_keeps {items : List (Item (Span π))}
    (hitems : Atom.All A (Item.atomsAll items)) {c : Char} (hc : isBlank c = false)
    (p : List Char) : Ensures (State.At F (c :: p) []) (itemLine value items c) fun next _ =>
      Atom.All A (Item.atomsAll next.gathered) := by
  have hitem : Ensures (State.At F (c :: p) []) (item value c)
      (Onward F p.length fun x _ => Atom.All A (Item.atomsAll x.toList)) := by
    intro s hs
    obtain ⟨q, hq, hat, -⟩ := item_reads hreads hc p s hs
    exact ⟨q, hq, hat, item_keeps hfits hvalue hc p s hs⟩
  refine .call hitem fun x q _ hx => ?_
  have hmore : Atom.All A (Item.atomsAll (x.toList ++ items)) := by
    simpa [Item.atomsAll_eq] using And.intro hx hitems
  split
  · exact .pure fun _ _ => hmore
  · exact .call (trailingText_reads _ _ _ q) fun _ _ _ _ => .pure fun _ _ => hmore

theorem sequenceStep_keeps (start : π) {items : List (Item (Span π))}
    (hitems : Atom.All A (Item.atomsAll items)) (p : List Char) :
    Ensures (State.At F p []) (sequenceStep value start items) fun next _ =>
      Atom.All A (Item.atomsAll next.gathered) :=
  .readVisible (fun _ => .reportToReach (.pure fun _ _ => hitems)) fun _ _ hc =>
    .ite (fun _ => .pure fun _ _ => hitems) fun _ =>
      .ite (fun _ => .pure fun _ _ => hitems) fun _ =>
        itemLine_keeps hfits hvalue hreads hitems hc _

/-- What the steps of a map gather has `A`. -/
theorem entries_yields (hgroup : F.inGroup = false) (opened : Option π) :
    Yields F (fun entries => Atom.All A (Entry.atomsAll entries))
      (repeating (mapStep value opened) []) :=
  .repeating (I := EntriesWithin F) (fun _ _ _ h => mapStep_reads hgroup hreads opened h)
    (fun _ h => mapStep_keeps hfits hvalue hreads hgroup opened h) Nat.le_refl Atom.all_nil

theorem items_yields (start : π) :
    Yields F (fun items => Atom.All A (Item.atomsAll items))
      (repeating (sequenceStep value start) []) :=
  .repeating (I := ItemsWithin F) (fun _ _ _ h => sequenceStep_reads hreads start h)
    (fun _ h => sequenceStep_keeps hfits hvalue hreads start h) Nat.le_refl Atom.all_nil

/-- **Files**: all that the map of a whole file holds has `A`. -/
theorem fileMap_ensures (hgroup : F.inGroup = false) (p : List Char) :
    Ensures (State.At F p []) (fileMap value) fun m _ => Atom.All A m.atoms :=
  .outsideGroup hgroup (.here ((entries_yields hfits hvalue hreads hgroup none p).call
    fun _ _ _ h => .here (.pure fun _ _ => Atom.all_reverse_entries.mpr h)))

end

/-! ## Values -/

/-- Values lie where they are read, and all that they hold has `A`. -/
structure FittingValue (F : Frame π) (A : Atom (Span π) → Prop)
    (value : Grammar π (Option (Value (Span π)))) : Prop where
  reads : Reads F (Value.Within F.cover) value
  yields : Yields F (fun v => Atom.All A (Value.atoms? v)) value

variable [DecidableEq π]

section

variable (hfits : Fits F.toTape A) {inner : Grammar π (Option (Value (Span π)))}
  (hinner : F.depth < F.limit → FittingValue F.deeper A inner)

include hfits hinner

theorem map_ensures (hgroup : F.inGroup = false) (p : List Char) :
    Ensures (State.At F ('{' :: p) []) (map inner) fun m _ => Atom.All A m.atoms := by
  refine .outsideGroup hgroup (.placeOf (by decide) (.atLimit (.ite (fun _ => ?_) fun hroom => ?_)))
  · exact .call (skipContainer_reads _ _ _ _ _) fun _ _ _ _ => .here (.pure fun _ _ => Atom.all_nil)
  · have hinner := hinner (by simpa using hroom)
    exact (Yields.nested (entries_yields (F := F.deeper) hfits hinner.yields hinner.reads hgroup
      (some _)) _).call fun _ _ _ h => .here (.pure fun _ _ => Atom.all_reverse_entries.mpr h)

theorem sequence_ensures (p : List Char) :
    Ensures (State.At F ('[' :: p) []) (sequence inner) fun x _ => Atom.All A x.atoms := by
  refine .placeOf (by decide) (.atLimit (.ite (fun _ => ?_) fun hroom => ?_))
  · exact .call (skipContainer_reads _ _ _ _ _) fun _ _ _ _ => .here (.pure fun _ _ => Atom.all_nil)
  · have hinner := hinner (by simpa using hroom)
    exact (Yields.nested (items_yields (F := F.deeper) hfits hinner.yields hinner.reads _) _).call
      fun _ _ _ h => .here (.pure fun _ _ => Atom.all_reverse_items.mpr h)

theorem valueFrom_ensures (hgroup : F.inGroup = false) {c : Char} (hc : isBlank c = false)
    (p : List Char) : Ensures (State.At F (c :: p) []) (valueFrom inner c) fun v _ =>
      Atom.All A (Value.atoms? v) := by
  refine .ite ?_ fun _ => .ite ?_ fun _ => .putBack (ne_newline_of_visible hc) ?_
  · rintro rfl
    exact .bind (sequence_ensures hfits hinner p) fun _ => .pure fun _ h => h
  · rintro rfl
    exact .bind (map_ensures hfits hinner hgroup p) fun _ => .pure fun _ h => h
  · refine (scalar_yields hfits p).call fun r _ _ hr => .pure fun _ _ => ?_
    cases r with
    | none => exact Atom.all_nil
    | some t => exact hr t rfl

end

theorem valueWithin_succ_fits (hfits : Fits F.toTape A) {room : Nat} (hgroup : F.inGroup = false)
    (hinner : F.depth < F.limit → FittingValue F.deeper A (valueWithin room)) :
    FittingValue F A (valueWithin (room + 1)) := by
  have hreads := valueWithin_succ_reads hgroup fun hdepth => (hinner hdepth).reads
  refine ⟨hreads, .of_reads (fun p => hreads p) fun p => .outsideGroup hgroup ?_⟩
  exact .peekOnLine (.pure fun _ _ => Atom.all_nil) fun _ _ hc =>
    .accept (valueFrom_ensures hfits hinner hgroup hc _)

/-- **Values**: by induction on how deep containers may stand inside each other. -/
theorem valueWithin_fits (hfits : Fits F.toTape A) (room : Nat) (hgroup : F.inGroup = false)
    (hroom : F.limit ≤ F.depth + room) : FittingValue F A (valueWithin (room + 1)) := by
  induction room generalizing F with
  | zero => exact valueWithin_succ_fits hfits hgroup fun hdepth => absurd hdepth (by omega)
  | succ room ih =>
    refine valueWithin_succ_fits hfits hgroup fun _ => ih (F := F.deeper) hfits hgroup ?_
    simp only [Frame.deeper]
    omega

theorem value_fits (hfits : Fits F.toTape A) (hgroup : F.inGroup = false) :
    FittingValue F A value := by
  have hwithin := valueWithin_fits hfits F.limit hgroup (Nat.le_add_left _ _)
  exact ⟨value_reads hgroup, fun p => .asking (fun _ hs => hs.limit) (hwithin.yields p)⟩

end Diagram.Grammar
