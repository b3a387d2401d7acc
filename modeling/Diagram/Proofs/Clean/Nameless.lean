import Diagram.Proofs.Clean.Spelling
import Diagram.Proofs.Sound.Container

/-!
Text that is read as a key but names nothing. The grammar drops it and goes on behind it: the mark
of an override, blanks that are written as escapes, and the parentheses of an edge group without an
edge. Where nothing is wrong, no other text is read without a node.
-/
namespace Diagram

/-- The index behind an edge group. -/
def IsIndex (cs : List Char) : Prop :=
  ∃ front index, cs = front ++ '[' :: (index ++ [']']) ∧ LineBlanks front ∧ IndexText index

/-- The path behind an edge group. -/
def IsEdgePath (cs : List Char) : Prop :=
  ∃ front path, cs = front ++ '.' :: path ∧ LineBlanks front ∧ PathText path

/-- Behind an edge group, an index and a path, each of which may be missing. -/
def BehindGroup (cs : List Char) : Prop :=
  ∃ index path, cs = index ++ path ∧ (index = [] ∨ IsIndex index) ∧ (path = [] ∨ IsEdgePath path)

/-- The end of an edge group that holds no more than a path,
with the index and the path behind it. -/
def EndsGroup (cs : List Char) : Prop :=
  ∃ path blanks behind, cs = path ++ (blanks ++ ')' :: behind) ∧ PathText path ∧ LineBlanks blanks ∧
    BehindGroup behind

/-- The parentheses of an edge group without an edge, with the index and the path behind it. -/
def IsGroup (cs : List Char) : Prop :=
  ∃ rest, cs = '(' :: rest ∧ EndsGroup rest

/-- A gap, and perhaps an edge group behind it. -/
def GapOrGroup (cs : List Char) : Prop :=
  ∃ gap group, cs = gap ++ group ∧ Gap gap ∧ (group = [] ∨ IsGroup group)

/-- Text that the grammar of entries reads without finding a node. -/
inductive Nameless : List Char → Prop
  /-- A substitution that spreads nothing. -/
  | spread : Nameless ['.', '.', '.', '$']
  | key {cs : List Char} (h : GapOrGroup cs) : Nameless cs
  | markedKey {cs : List Char} (h : GapOrGroup cs) : Nameless ('&' :: cs)

theorem Gap.gapOrGroup {cs : List Char} (h : Gap cs) : GapOrGroup cs :=
  ⟨cs, [], by simp, h, .inl rfl⟩

theorem IsGroup.gapOrGroup {cs : List Char} (h : IsGroup cs) : GapOrGroup cs :=
  ⟨[], cs, rfl, .nil, .inr h⟩

theorem GapOrGroup.behindGap {gap cs : List Char} (h : GapOrGroup cs) (hgap : Gap gap) :
    GapOrGroup (gap ++ cs) := by
  obtain ⟨gap', group, rfl, hgap', hgroup⟩ := h
  exact ⟨gap ++ gap', group, by simp, hgap.append hgap', hgroup⟩

namespace Grammar

variable {π : Type} {F : Frame π} {p : List Char} {n : Nat}

/-! ## Edges -/

theorem edgeEscape_found (start : π) (p : List Char) :
    Ensures (State.At F p []) (edgeEscape start) (IfClean fun goesOn _ => goesOn = true) := by
  refine .peekVisible (.pure fun _ _ _ => rfl) fun b c hc =>
    .ite (fun _ => .retreat .unclean_toReach) fun _ => .ite (fun _ => ?_) fun _ => ?_
  · exact .accept (.putBack (ne_newline_of_visible hc) (.pure fun _ _ _ => rfl))
  · exact .retreat (.pure fun _ _ _ => rfl)

/-- A connection that is broken off is reported. -/
theorem edgeLine_found (start : π) (p : List Char) :
    Ensures (State.At F p []) (edgeLine start) (IfClean fun head _ => head ≠ none) := by
  have hstep : ∀ head p, Ensures (State.At F p []) (edgeCharacter start head)
      (IfClean fun next _ => ∀ head, next = .stop head → head ≠ none) := by
    intro head p
    refine .peek .unclean_toReach fun c => .ite (fun _ => ?_) fun _ => .ite (fun _ => ?_) fun _ =>
      .ite (fun _ => ?_) fun _ => .ite (fun _ => ?_) fun _ => ?_
    · exact .accept (.pure fun _ _ _ => by simp)
    · exact .accept (.pure fun _ _ _ => by simp)
    · refine .accept (.bind (edgeEscape_found start _) fun goesOn => .pure fun s hgoes hclean => ?_)
      rw [hgoes hclean]
      simp
    · exact .accept (.pure fun _ _ _ => by simp)
    · exact .retreat (.pure fun _ _ _ => by simp)
  exact repeating_stops (I := fun _ _ => True) (Q := fun _ _ => True)
    (fun head p _ => edgeCharacter_reads start head p)
    (fun head p => (hstep head p).weaken fun _ _ h head hnext hclean => h hclean head hnext) trivial

theorem edgeTarget_edges (chain : Chain π) (head targetHead : Arrowhead) (start : π)
    (s : State π) : (edgeTarget chain head start targetHead s).1.gathered.edges ≠ [] := by
  rw [edgeTarget, bind_apply, bind_apply]
  cases (path _).1 with
  | none => exact List.cons_ne_nil _ _
  | some target => exact List.cons_ne_nil _ _

/-- A connection that is begun leads to an edge, or something is wrong. -/
theorem edgeFrom_edges {chain : Chain π} {c : Char} {head : Arrowhead} {l : List Char}
    (hc : c ≠ '\n') :
    Ensures (State.At F p l) (edgeFrom chain c head)
      (IfClean fun next _ => next.gathered.edges ≠ []) := by
  rw [edgeFrom]
  cases chain.source with
  | none =>
    rw [edgeStart, bind_assoc]
    refine .lookedPlace ?_
    rw [bind_assoc]
    refine .before hc ?_
    rw [bind_assoc]
    exact .unclean
  | some source =>
    rw [edgeStart, pure_bind]
    refine .accept (.bindClean (edgeLine_found _ _) fun targetHead s hfound => ?_)
    cases targetHead with
    | none => exact absurd rfl hfound
    | some targetHead => exact fun _ => edgeTarget_edges chain head targetHead _ s

/-- Nothing has been consumed, and no connection starts on the line. -/
def NoConnection (F : Frame π) (p : List Char) (s : State π) : Prop :=
  s.At F p [] ∧ ∀ c, F.OnLine p.length c → sourceHead? c = none

theorem nextEdge_none (chain : Chain π) (p : List Char) :
    Ensures (State.At F p []) (nextEdge chain) (IfClean fun next s =>
      next.gathered.edges = [] → chain.edges = [] ∧ NoConnection F p s) := by
  have hstop : (∀ c, F.OnLine p.length c → sourceHead? c = none) →
      Ensures (State.At F p []) (pure (Next.stop chain)) (IfClean fun next s =>
        next.gathered.edges = [] → chain.edges = [] ∧ NoConnection F p s) :=
    fun hline => .pure fun s hs _ hnone => ⟨hnone, hs, hline⟩
  refine .peekLine (fun h => hstop fun c hc => absurd hc (h c)) fun b c hb hc => ?_
  dsimp only
  cases hhead : sourceHead? c with
  | none => exact .retreat (hstop fun c' hc' => hc.unique hc' ▸ hhead)
  | some head =>
    exact (edgeFrom_edges hc.ne_newline).weaken fun _ _ h hclean hnone => absurd hnone (h hclean)

/-- Where there is no edge, nothing has been consumed. -/
theorem edges_none {source : Option (KeyPath (Span π))} (hn : n ≤ p.length)
    (hsource : ∀ path ∈ source, path.Within F.cover n p.length) :
    Ensures (State.At F p []) (edges source)
      (IfClean fun edges s => edges = [] → NoConnection F p s) := by
  -- as long as the chain has no edge, no step has moved: it stands where the first one started
  have hholds : ∀ chain q, Chain.Within F n chain q.length →
      Ensures (fun s => s.At F q [] ∧
        IfClean (fun chain s => chain.edges = [] → s.At F p []) chain s)
        (nextEdge chain) (Next.Holds (IfClean fun chain s => chain.edges = [] → s.At F p [])
          (IfClean fun chain s => chain.edges = [] → NoConnection F p s)) := by
    intro chain q _ s ⟨hs, hfront⟩
    have hafter : IfClean (fun next s => next.gathered.edges = [] → NoConnection F p s)
        (nextEdge chain s).1 (nextEdge chain s).2 := by
      intro hclean hnone
      obtain ⟨hchain, hnext⟩ := nextEdge_none chain q s hs hclean hnone
      have hat := hfront (problems_nil (nextEdge chain) hclean) hchain
      obtain rfl : q = p := hs.reader.past.symm.trans hat.reader.past
      exact hnext
    cases hnext : (nextEdge chain s).1 with
    | again chain' =>
      rw [hnext] at hafter
      exact fun hclean hnone => (hafter hclean hnone).1
    | stop chain' =>
      rw [hnext] at hafter
      exact hafter
  intro s hs
  have hchain := repeating_holds (fun _ _ h => nextEdge_reads h) hholds
    (g := ⟨[], source⟩) ⟨hn, by simp, hsource⟩ s ⟨hs, fun _ _ => hs⟩
  exact fun hclean hnone => hchain hclean (List.reverse_eq_nil_iff.mp hnone)

/-- Where there is no edge, nothing is consumed in search of one. -/
theorem edges_consumes {source : Option (KeyPath (Span π))} (hn : n ≤ p.length)
    (hsource : ∀ path ∈ source, path.Within F.cover n p.length) :
    Ensures (State.At F p []) (edges source) (Consumes F p fun edges u => edges = [] → u = []) := by
  intro s hs hclean
  obtain ⟨q, hq, hat, -⟩ := edges_reads hn hsource s hs
  obtain ⟨u, rfl⟩ := consumed_append (v := []) hs hat hq
  refine ⟨u, hat, fun hnone => ?_⟩
  have hat' := (edges_none hn hsource s hs hclean hnone).1
  exact List.append_cancel_right (hat.reader.past.symm.trans hat'.reader.past)

/-! ## Edge groups -/

theorem groupPath_consumes (key : Key (Span π)) (p : List Char) :
    Ensures (State.At F p []) (groupPath key) (Consumes F p fun r u =>
      r.1.edges = key.edges ∧ (u.reverse = [] ∨ IsEdgePath u.reverse)) := by
  refine .acceptOverBlanks (fun b hb => ?_) ?_ ?_
  · refine .callClean (path_consumes _) fun _ u hu =>
      .consumed (u ++ '.' :: b) (by simp) ⟨rfl, .inr ?_⟩
    exact ⟨b.reverse, u.reverse, by simp, hb.reverse, hu.1⟩
  · exact .consumed [] rfl ⟨rfl, .inl rfl⟩
  · exact .consumed [] rfl ⟨rfl, .inl rfl⟩

theorem groupIndex_consumes (key : Key (Span π)) (p : List Char) :
    Ensures (State.At F p []) (groupIndex key)
      (Consumes F p fun r u => r.1.edges = key.edges ∧ BehindGroup u.reverse) := by
  refine .acceptOverBlanks (fun b hb => ?_) ?_ ?_
  · refine .callClean (edgeIndex_consumes (b ++ p)) fun index u ⟨cs, hu, hcs⟩ => ?_
    refine .tailClean (u ++ '[' :: b) (groupPath_consumes _ _) (by simp) fun _ w ⟨hedges, hw⟩ => ?_
    refine ⟨hedges, b.reverse ++ '[' :: (cs ++ [']']), w.reverse, by simp [hu], .inr ?_, hw⟩
    exact ⟨b.reverse, cs, rfl, hb.reverse, hcs⟩
  · exact .tailClean [] (groupPath_consumes key p) rfl fun _ w ⟨hedges, hw⟩ =>
      ⟨hedges, [], w.reverse, by simp, .inl rfl, hw⟩
  · exact .consumed [] rfl ⟨rfl, [], [], rfl, .inl rfl, .inl rfl⟩

/-- An edge group without an edge is read up to its closing parenthesis
and over what belongs to it. -/
theorem groupParts_consumes (key : Key (Span π)) (p : List Char) :
    Ensures (State.At F p []) (groupParts key)
      (Consumes F p fun r u => r.1.edges = [] → EndsGroup u.reverse) := by
  refine .callClean (.consumes_and (path_consumes p) (.consumes (v := []) (path_reads p)
    (Nat.le_refl _) fun _ _ h => h)) fun source u ⟨⟨hpath, _⟩, hsource⟩ => ?_
  refine .callClean (edges_consumes (by simp) hsource) fun edges w hw => ?_
  refine .acceptOverBlanks (fun b hb => ?_) .unclean_toHere .unclean_toHere
  refine .tailClean (')' :: (b ++ (w ++ u))) (groupIndex_consumes _ _) (by simp)
    fun r x ⟨hedges, hx⟩ hnone => ?_
  obtain rfl := hw (hedges.symm.trans hnone)
  exact ⟨u.reverse, b.reverse, x.reverse, by simp, hpath, hb.reverse, hx⟩

/-! ## Keys -/

theorem edges_nil {key : Key (Span π)} (h : key.isNamed = false) : key.edges = [] := by
  simp only [Key.isNamed, Bool.or_eq_false_iff, Bool.not_eq_false'] at h
  exact List.isEmpty_iff.mp h.2

theorem path_none {key : Key (Span π)} (h : key.isNamed = false) : key.path = none := by
  cases hpath : key.path with
  | none => rfl
  | some path => simp [Key.isNamed, hpath] at h

section

variable (value : Grammar π (Option (Value (Span π))))

/-- The value of a key does not change its name. -/
theorem mapBehind_isNamed (key : Key (Span π)) (scalar : Scalar (Span π)) (s : State π) :
    (mapBehind value key scalar s).1.isNamed = key.isNamed := by
  rw [mapBehind, bind_apply]
  cases (peekOnLine s).1 with
  | none => rfl
  | some c =>
    by_cases hc : c = '{'
    · simp only [hc, if_true]
      rfl
    · simp only [hc, if_false]
      rfl

theorem valueOfKey_isNamed (key : Key (Span π)) (s : State π) :
    (valueOfKey value key s).1.isNamed = key.isNamed := by
  rw [valueOfKey, bind_apply]
  cases (value s).1 with
  | none => rfl
  | some v =>
    cases v with
    | scalar scalar => exact mapBehind_isNamed value key scalar _
    | sequence x => rfl
    | map m => rfl

theorem keyValue_isNamed (key : Key (Span π)) (s : State π) :
    (keyValue value key s).1.isNamed = key.isNamed := by
  rw [keyValue, bind_apply]
  cases (peekOnLine s).1 with
  | none => rfl
  | some c =>
    by_cases hbrace : c = '{'
    · simp only [hbrace, if_true]
      cases hnamed : key.isNamed with
      | false => exact hnamed
      | true => exact (valueOfKey_isNamed value key _).trans hnamed
    by_cases hcolon : c = ':'
    · simp only [hcolon, if_true]
      exact valueOfKey_isNamed value key _
    · simp only [hbrace, hcolon, if_false]
      rfl

/-- Behind what names nothing, no value is read. -/
theorem keyValue_unnamed (key : Key (Span π)) (p : List Char) :
    Ensures (State.At F p []) (keyValue value key)
      (IfClean fun k s => k.isNamed = false → key.isNamed = false ∧ s.At F p []) := by
  cases hkey : key.isNamed with
  | true =>
    intro s _ _ hunnamed
    rw [keyValue_isNamed, hkey] at hunnamed
    cases hunnamed
  | false =>
    have hdone : Ensures (State.At F p []) (pure key)
        (IfClean fun k s => k.isNamed = false → false = false ∧ s.At F p []) :=
      .pure fun _ hs _ _ => ⟨rfl, hs⟩
    refine .peekOnLine hdone fun b c _ => .ite (fun _ => .retreat ?_) fun _ =>
      .ite (fun _ => .accept ?_) fun _ => .retreat hdone
    · rw [hkey]
      exact hdone
    · rw [hkey]
      exact .unclean_toHere

variable (hgroup : F.inGroup = false)

include hgroup

/-- An edge group that names nothing is read over its closing parenthesis and what belongs to it. -/
theorem edgeGroup_unnamed (key : Key (Span π)) {b : List Char} (hb : ∀ x ∈ b, isBlank x = true)
    (p : List Char) :
    Ensures (State.At F ('(' :: (b ++ p)) []) (edgeGroup value key) (IfClean fun k s =>
      k.isNamed = false → key.path = none ∧ ∃ u, s.At F (u ++ p) [] ∧ GapOrGroup u.reverse) := by
  have hparts : Ensures (State.At (F.grouped true) ('(' :: (b ++ p)) []) (groupParts key)
      (IfClean fun r s => r.1.path = key.path ∧
        ∃ u, s.At (F.grouped true) (u ++ '(' :: (b ++ p)) [] ∧
          (r.1.edges = [] → EndsGroup u.reverse)) := by
    intro s hs hclean
    obtain ⟨edges, edgeIndex, edgePath, heq⟩ := groupParts_eq key s
    exact ⟨by rw [heq], groupParts_consumes key _ s hs hclean⟩
  -- the blanks in front of the parenthesis are a gap, behind which the group stands
  have hshape : ∀ {u}, EndsGroup u.reverse → GapOrGroup (u ++ '(' :: b).reverse := by
    intro u hu
    have hblanks : Gap b.reverse := .blanks fun x hx => hb x (List.mem_reverse.mp hx)
    have hgroup : GapOrGroup ('(' :: u.reverse) := IsGroup.gapOrGroup ⟨_, rfl, hu⟩
    simpa using hgroup.behindGap hblanks
  refine .setGroup (.bindClean hparts fun r => .of_and fun hpath => .of_exists fun u =>
    .of_and_right fun hu => .setGroup ?_)
  rw [Frame.grouped_grouped hgroup]
  refine .ite (fun _ => ?_) fun _ => .pure fun s hs _ hunnamed => ?_
  · refine (keyValue_unnamed value r.1 _).weaken fun k s h hclean hunnamed => ?_
    obtain ⟨hkey, hs⟩ := h hclean hunnamed
    exact ⟨hpath ▸ path_none hkey, u ++ '(' :: b, by simpa using hs, hshape (hu (edges_nil hkey))⟩
  · exact ⟨hpath ▸ path_none hunnamed, u ++ '(' :: b, by simpa using hs,
      hshape (hu (edges_nil hunnamed))⟩

/-- Where a key names nothing, no more than an edge group without an edge is read behind its path,
which is missing, unless a `>` is next on the line. -/
theorem keyBehindPath_unnamed {key : Key (Span π)} {n : Nat} (hn : n ≤ p.length)
    (hpath : ∀ x ∈ key.path, x.Within F.cover n p.length) :
    Ensures (State.At F p []) (keyBehindPath value key) (IfClean fun k s => k.isNamed = false →
      key.path = none ∧ (∃ u, s.At F (u ++ p) [] ∧ GapOrGroup u.reverse) ∨
        s.At F p [] ∧ F.OnLine p.length '>') := by
  have hstays : ∀ {k : Key (Span π)} {s : State π}, k.isNamed = false → s.At F p [] →
      k.path = none ∧ ∃ u, s.At F (u ++ p) [] ∧ GapOrGroup u.reverse :=
    fun hunnamed hs => ⟨path_none hunnamed, [], hs, Gap.nil.gapOrGroup⟩
  refine .peekLine (fun _ => .pure fun s hs _ hunnamed => .inl (hstays hunnamed hs))
    fun b c hb hc =>
    .ite (fun hparen => ?_) fun _ => .ite (fun hedge => .retreat ?_) fun _ => .retreat ?_
  · subst hparen
    exact .accept ((edgeGroup_unnamed value hgroup key hb p).weaken fun k s h hclean hunnamed =>
      .inl (h hclean hunnamed))
  · refine .bindClean (edges_none hn hpath) fun edges s hnone hclean hunnamed => .inr ?_
    -- of the three signs that lead here, only `>` can be followed by no edge without a report
    match edges with
    | [] =>
      obtain ⟨hs, hline⟩ := hnone rfl
      have hhead := hline c hc
      simp only [Bool.or_eq_true, decide_eq_true_eq] at hedge
      obtain rfl : c = '>' := by
        rcases hedge with (rfl | rfl) | rfl
        · cases hhead
        · rfl
        · cases hhead
      exact ⟨(keyValue_unnamed value _ p s hs hclean hunnamed).2, hc⟩
    | edge :: edges =>
      rw [keyValue_isNamed] at hunnamed
      simp [Key.isNamed] at hunnamed
  · refine (keyValue_unnamed value key p).weaken fun k s h hclean hunnamed => .inl ?_
    obtain ⟨hkey, hs⟩ := h hclean hunnamed
    exact hstays hkey hs

/-- What names nothing, or what a `>` is next to on the line. -/
def NamelessAt (F : Frame π) (p u : List Char) : Prop :=
  Nameless u.reverse ∨ F.OnLine (u ++ p).length '>'

theorem keyBehindAmpersand_unnamed {key : Key (Span π)} (p : List Char) :
    Ensures (State.At F p []) (keyBehindAmpersand value key) (IfClean fun k s =>
      k.isNamed = false → ∃ u, s.At F (u ++ p) [] ∧
        (GapOrGroup u.reverse ∨ F.OnLine (u ++ p).length '>')) := by
  refine .peek (.pure fun s hs _ _ => ⟨[], hs, .inl Gap.nil.gapOrGroup⟩) fun c =>
    .ite (fun hparen => ?_) fun _ => .retreat ?_
  · subst hparen
    refine .accept ((edgeGroup_unnamed value hgroup key (b := []) (by simp) p).weaken
      fun k s h hclean hunnamed => ?_)
    obtain ⟨-, u, hs, hu⟩ := h hclean hunnamed
    exact ⟨u, hs, .inl hu⟩
  · refine .callClean (.consumes_and (path_consumes p) (.consumes (v := []) (path_reads p)
      (Nat.le_refl _) fun _ _ h => h)) fun path u ⟨⟨_, hgap⟩, hpath⟩ => ?_
    refine (keyBehindPath_unnamed value hgroup (n := p.length) (by simp) hpath).weaken
      fun k s h hclean hunnamed => ?_
    rcases h hclean hunnamed with ⟨hnone, w, hs, hw⟩ | ⟨hs, hline⟩
    · refine ⟨w ++ u, by simpa using hs, .inl ?_⟩
      rw [List.reverse_append]
      exact hw.behindGap (hgap hnone)
    · exact ⟨u, hs, .inr hline⟩

theorem keyParts_unnamed (key : Key (Span π)) (p : List Char) :
    Ensures (State.At F p []) (keyParts value key) (IfClean fun k s =>
      k.isNamed = false → ∃ u, s.At F (u ++ p) [] ∧ NamelessAt F p u) := by
  refine .peek (.pure fun s hs _ _ => ⟨[], hs, .inl (.key Gap.nil.gapOrGroup)⟩) fun c =>
    .ite (fun hmark => ?_) fun _ => .retreat ?_
  · subst hmark
    refine .accept ((keyBehindAmpersand_unnamed value hgroup _).weaken
      fun k s h hclean hunnamed => ?_)
    obtain ⟨u, hs, hu⟩ := h hclean hunnamed
    refine ⟨u ++ ['&'], by simpa using hs, hu.imp (fun hu => ?_) fun hline => by simpa using hline⟩
    simpa using Nameless.markedKey hu
  · refine (keyBehindAmpersand_unnamed value hgroup p).weaken fun k s h hclean hunnamed => ?_
    obtain ⟨u, hs, hu⟩ := h hclean hunnamed
    exact ⟨u, hs, hu.imp_left .key⟩

end

end Grammar

end Diagram
