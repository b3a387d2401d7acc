import Diagram.Proofs.Separator.Edge
import Diagram.Proofs.Twin.Container

/-!
Keys in front of a semicolon, and what follows a node there. A dash, a star or a parenthesis that
the first run leaves of a key is reported behind it. In an edge group that the text ends in, the
second run misses a parenthesis that it has taken for text.
-/
namespace Diagram.Grammar

variable {β : Type} {S : Seam} {p : List Char} {value : Grammar Nat (Option (Value (Span Nat)))}

/-! ## What follows a node -/

theorem trailingCharacter_abreast (closing : Char) (u : Unit) (p : List Char) :
    Abreast S (S.Beside p []) (trailingCharacter closing u) Nowhere :=
  .peekOnLineSame (if_neg (by simp)) .done fun _ _ _ =>
    .ite (fun _ => .accept .done) fun _ => .retreat .done

theorem trailingText_abreast (typeName : Option String) (closing : Char) (fallback : Cause)
    (p : List Char) :
    Abreast S (S.Beside p []) (trailingText typeName closing fallback) Nowhere :=
  .here (.call (repeating_abreast trivial trivial
    (fun u p _ => trailingCharacter_reads closing u p)
    (fun u p _ => trailingCharacter_reads closing u p)
    (fun u p _ _ => trailingCharacter_abreast closing u p) fun _ _ => .nowhere) fun _ _ =>
      .here (.last (.whenever (fun _ => .report) fun _ => .done)))

/-! ## Values of keys -/

/-- The values inside a container come out the same, except where the line is over. -/
structure ValueAbreast (S : Seam) (value : Grammar Nat (Option (Value (Span Nat)))) : Prop where
  abreast : ∀ p, Abreast S (S.Beside p []) value (Landed S id)
  first_reads : Reads S.first (Value.Within S.first.cover) value
  second_reads : Reads S.second (Value.Within S.second.cover) value

/-- How a key comes out apart. -/
def KeyLanded (S : Seam) : Key (Span Nat) → Key (Span Nat) → State Nat → State Nat → Prop :=
  Landed S (Key.mapMarks unplaced)

theorem mapBehind_abreast (hvalue : ValueAbreast S value) (key : Key (Span Nat))
    (scalar : Scalar (Span Nat)) (p : List Char) :
    Abreast S (S.Beside p []) (mapBehind value key scalar) (KeyLanded S) := by
  refine .peekOnLineSame (if_neg (by decide)) .done fun b c _ => .ite (fun hc => ?_) fun _ =>
    .retreat .done
  subst hc
  refine .accept (.putBack (by decide) (.callStray (hvalue.abreast _) (fun v w => .pure ?_)
    fun _ _ => .done))
  rintro s t ⟨hsame, hover⟩
  obtain rfl : v = w := hsame
  exact ⟨rfl, hover⟩

theorem valueOfKey_abreast (hvalue : ValueAbreast S value) (key : Key (Span Nat)) (p : List Char) :
    Abreast S (S.Beside p []) (valueOfKey value key) (KeyLanded S) := by
  refine .callStray (hvalue.abreast p) (fun v w => ?_) fun v q => ?_
  · rintro s t ⟨hsame, hover⟩
    obtain rfl : v = w := hsame
    match v with
    | none =>
      exact .moot (R := fun _ => True) (.bind (R := fun _ _ => True) (fun _ _ => trivial)
        fun _ => .astray_reportAtColon S.tail_ne_nil) trivial
    | some (.scalar scalar) =>
      refine Apart.landed (a := v) (b := v) (m := id) (mapBehind_idles key scalar)
        (mapBehind_idles key scalar) ?_ s t ⟨rfl, hover⟩
      rintro _ _ s t - rfl rfl hover
      exact ⟨rfl, hover⟩
    | some (.sequence _) | some (.map _) => exact .apart ⟨rfl, hover⟩
  · match v with
    | none => exact .here .reportAtColon
    | some (.scalar scalar) => exact mapBehind_abreast hvalue key scalar q
    | some (.sequence _) | some (.map _) => exact .done

theorem keyValue_abreast (hvalue : ValueAbreast S value) (key : Key (Span Nat)) (p : List Char) :
    Abreast S (S.Beside p []) (keyValue value key) (KeyLanded S) :=
  .peekOnLineSame ((if_neg (by decide)).trans (if_neg (by decide))) .done fun _ _ _ =>
    .ite (fun _ => .retreat (.ite (fun _ => valueOfKey_abreast hvalue key p) fun _ => .done))
    fun _ => .ite (fun _ => .accept (.whenever (fun _ => .reportToHere)
      fun _ => valueOfKey_abreast hvalue key _)) fun _ => .retreat .done

/-! ## Edge groups -/

theorem Abreast.acceptBehind {E : β → β → State Nat → State Nat → Prop} {c : Char}
    {f : Behind → Grammar Nat β} (hc : c ≠ ';')
    (hfound : ∀ q, Abreast S (S.Beside (c :: q) []) (f .found) E)
    (hother : Abreast S (S.Beside p []) (f .other) E)
    (hlineEnd : Abreast S (S.Beside p []) (f .lineEnd) E)
    (hseam : ∀ b, LineBlanks b →
      Apart S (S.Aside p (b ++ [])) (f .lineEnd) (Grammar.retreat >>= fun _ => f .other) E) :
    Abreast S (S.Beside p []) (acceptBehind c >>= f) E := by
  simp only [Grammar.acceptBehind, bind_assoc]
  refine .peekOnLine hlineEnd (fun b hb => ?_) fun b x _ => ?_
  · simpa [hc.symm] using hseam b hb
  · by_cases hx : x = c
    · subst hx
      simpa using Abreast.accept (l := x :: b) (hfound (b ++ p))
    · simpa [hx] using Abreast.retreat (l := x :: b) hother

/-- How the parts behind the edges of a group come out apart. -/
def GroupApart (S : Seam) (a b : Key (Span Nat) × Bool) (s t : State Nat) : Prop :=
  Landed S (fun r => r.1.mapMarks unplaced) a b s t ∨ GroupStrands S.pairing a s ∨
    a.2 = true ∧ S.Closes s

/-- Where the first run finds nothing behind the group, both come to the key as it is. -/
theorem groupEnd_idle {key : Key (Span Nat)} {g : Grammar Nat (Key (Span Nat) × Bool)}
    {b : List Char} (hb : LineBlanks b) (hg : Idles g (·.1 = key)) :
    Apart S (S.Aside p (b ++ [])) (pure (key, false)) (retreat >>= fun _ => g) (GroupApart S) :=
  .idle hb hg fun _ _ _ hkey hover => .inl ⟨congrArg (Key.mapMarks unplaced) hkey.symm, hover⟩

theorem groupPath_abreast (key : Key (Span Nat)) (p : List Char) :
    Abreast S (S.Beside p []) (groupPath key) (GroupApart S) := by
  refine .acceptBehind (by decide) (fun q => ?_) .done .done fun b hb =>
    groupEnd_idle hb (.done rfl)
  refine .callStray (path_abreast _) (fun x y => .pure ?_) fun _ _ => .done
  rintro s t (⟨hsame, hover⟩ | ⟨-, hstranded⟩ | ⟨hcloses, -⟩)
  · refine .inl ⟨?_, hover⟩
    simp only [Key.mapMarks_eq, hsame]
  · exact .inr (.inl ⟨rfl, hstranded⟩)
  · exact .inr (.inr ⟨rfl, hcloses⟩)

theorem groupIndex_abreast (key : Key (Span Nat)) (p : List Char) :
    Abreast S (S.Beside p []) (groupIndex key) (GroupApart S) :=
  .acceptBehind (by decide) (fun q => .call (edgeIndex_abreast q) fun _ q => groupPath_abreast _ q)
    (groupPath_abreast key p) .done fun _ hb => groupEnd_idle hb (groupPath_idles key)

/-- What is read of an edge group behind its edges. -/
def groupBehindEdges (key : Key (Span Nat)) : Grammar Nat (Key (Span Nat) × Bool) := do
  match ← acceptBehind ')' with
  | .found => groupIndex key
  | .other | .lineEnd => do
    reportToHere .unterminatedEdgeGroup key.range.start
    pure (key, false)

/-- An edge group is a path, its edges and what is behind them. -/
theorem groupParts_split (key : Key (Span Nat)) :
    groupParts key = path >>= fun source => edges source >>= fun edges =>
      groupBehindEdges { key with edges } := by
  unfold groupParts groupBehindEdges
  rfl

/-- The parenthesis that closes the group is missing. -/
def GroupMissed (_ : β) (s : State Nat) : Prop :=
  ∃ x ∈ s.problems, x.cause = .unterminatedEdgeGroup

theorem groupBehindEdges_over {F : Frame Nat} {rest : List Char}
    (hrest : rest = [] ∨ ∃ v, rest = ';' :: v) (key : Key (Span Nat)) :
    Ensures (State.Rests F rest) (groupBehindEdges key) GroupMissed := by
  refine .bind ((acceptBehind_idles (by decide)).rests hrest) fun behind =>
    .of_and fun hbehind => ?_
  cases behind with
  | found => exact absurd rfl hbehind
  | other | lineEnd => exact fun s _ => ⟨_, List.mem_cons_self, rfl⟩

theorem groupBehindPath_over {F : Frame Nat} {rest : List Char}
    (hrest : rest = [] ∨ ∃ v, rest = ';' :: v) (key : Key (Span Nat))
    (source : Option (KeyPath (Span Nat))) :
    Ensures (State.Rests F rest)
      (edges source >>= fun edges => groupBehindEdges { key with edges }) GroupMissed :=
  .bind ((edges_idles source).rests hrest) fun _ => .of_and fun _ => groupBehindEdges_over hrest _

/-- The first run misses the parenthesis at the end of its text. -/
theorem Judged.missed {E : β → β → State Nat → State Nat → Prop} {g : Grammar Nat β} {b : β}
    {s t : State Nat} (h : Ensures (State.Rests S.first []) g GroupMissed)
    (hs : s.Rests S.first []) : Judged S E (g s).1 b (g s).2 t := by
  obtain ⟨x, hx, -⟩ := h s hs
  exact .inl (.inl (List.ne_nil_of_mem hx))

/-- The second run misses the parenthesis that it has taken for text. -/
theorem Judged.slipped {E : β → β → State Nat → State Nat → Prop} {g : Grammar Nat β} {a : β}
    {s t : State Nat} (h : Ensures (State.Rests S.second (';' :: S.behind)) g GroupMissed)
    (hends : S.EndsIn ')') (ht : t.Rests S.second (';' :: S.behind)) :
    Judged S E a (g t).1 s (g t).2 := by
  obtain ⟨x, hx, hcause⟩ := h t ht
  exact .inl (.inr ⟨x, hx, .inl ⟨hcause, hends⟩⟩)

theorem groupBehindEdges_abreast (key : Key (Span Nat)) (p : List Char) :
    Abreast S (S.Beside p []) (groupBehindEdges key) (GroupApart S) :=
  .acceptBehind (by decide) (fun q => groupIndex_abreast key _) .reportToHere .reportToHere
    fun _ _ => .noticed (.astray_reportToHere S.tail_ne_nil)

theorem groupParts_abreast (key : Key (Span Nat)) (p : List Char) :
    Abreast S (S.Beside p []) (groupParts key) (GroupApart S) := by
  rw [groupParts_split]
  refine .callReads (path_abreast p) (path_reads p) (path_reads p) (fun x y => ?_)
    fun source q hq hsource₁ hsource₂ => ?_
  · rintro s t (⟨-, hs, -⟩ | ⟨-, hstranded⟩ | ⟨⟨-, hends, -⟩, -, ht⟩)
    · exact .missed (groupBehindPath_over (.inl rfl) key x) hs
    · exact .moot (.astray (edges_astray S.tail_ne_nil x) fun _ _ _ h => h.elim) hstranded
    · exact .slipped (groupBehindPath_over (.inr ⟨_, rfl⟩) key y) hends ht
  refine .callStray (edges_abreast hq hsource₁ hsource₂) (fun x y => ?_)
    fun edges q => groupBehindEdges_abreast _ q
  rintro s t (⟨-, hs, -⟩ | ⟨-, hends, ht⟩)
  · exact .missed (groupBehindEdges_over (.inl rfl) _) hs
  · exact .slipped (groupBehindEdges_over (.inr ⟨_, rfl⟩) _) hends ht

/-- How a key comes out apart: the line is over, or the first run leaves text of the key behind. -/
def KeyApart (S : Seam) (a b : Key (Span Nat)) (s t : State Nat) : Prop :=
  KeyLanded S a b s t ∨ LeavesText S.pairing '}' s

/-- Outside of the group, a parenthesis that closes it is text. -/
theorem keyValue_leaves {q : List Char} (hq : S.first.text[q.length]? = some ')')
    (key : Key (Span Nat)) :
    Ensures (State.At S.first q []) (keyValue value key) fun _ => LeavesText S.pairing '}' := by
  refine .peekOnLineKnown hq (by decide) (.ite (fun h => absurd h (by decide)) fun _ =>
    .ite (fun h => absurd h (by decide)) fun _ => .retreat (.pure fun s hs => ?_))
  exact ⟨q, hs, ')', hq, by decide⟩

theorem edgeGroup_abreast (hgroup : S.first.inGroup = false) (hvalue : ValueAbreast S value)
    (key : Key (Span Nat)) (p : List Char) :
    Abreast S (S.Beside p []) (edgeGroup value key) (KeyApart S) := by
  have heq : edgeGroup value key = setGroup true >>= fun _ => groupParts key >>= fun r =>
      setGroup false >>= fun _ => if r.2 then keyValue value r.1 else pure r.1 := rfl
  rw [heq]
  refine Abreast.grouped (S := S) hgroup
    (groupParts_abreast (S := S.grouped true) key p) (fun a b => ?_) fun r q =>
      .ite (fun _ => (keyValue_abreast hvalue r.1 q).weaken fun _ _ _ _ h => .inl h) fun _ => .done
  have hidle : ∀ r : Key (Span Nat) × Bool,
      Idles (if r.2 then keyValue value r.1 else pure r.1) (· = r.1) := by
    intro r
    split
    · exact keyValue_idles r.1
    · exact .done rfl
  obtain ⟨key', goesOn⟩ := a
  rintro s t (⟨hsame, hs, ht⟩ | ⟨hon, hstranded⟩ | ⟨hon, hcloses⟩)
  · refine Apart.landed (m := fun r => r.1.mapMarks unplaced) (a := (key', goesOn)) (b := b)
      (hidle _) (hidle _) ?_ { s with inGroup := false } { t with inGroup := false }
      ⟨hsame, State.Rests.ungroup hgroup hs, State.Rests.ungroup (S.inGroup.trans hgroup) ht⟩
    rintro _ _ s t hsame rfl rfl hover
    exact .inl ⟨hsame, hover⟩
  · obtain rfl : goesOn = true := hon
    obtain ⟨q, c, hs, hrest, hc⟩ := hstranded
    refine .strays (keyValue_astray (K := S.pairing) S.tail_ne_nil key')
      (s := { s with inGroup := false })
      ⟨q, c, ⟨hs.reader, hs.depth, hs.limit, hgroup.symm⟩, hrest, hc⟩ fun _ _ h => .inr ?_
    exact h.leavesText (by decide) (by decide)
  · obtain rfl : goesOn = true := hon
    obtain ⟨-, -, q, hs, hq⟩ := hcloses
    exact .apart (.inr (keyValue_leaves (S := S) hq key' { s with inGroup := false }
      ⟨hs.reader, hs.depth, hs.limit, hgroup.symm⟩))

/-! ## Whole keys -/

theorem keyBehindPath_abreast (hgroup : S.first.inGroup = false) (hvalue : ValueAbreast S value)
    {n : Nat} (key : Key (Span Nat)) (hn : n ≤ p.length)
    (hpath₁ : ∀ x ∈ key.path, x.Within S.first.cover n p.length)
    (hpath₂ : ∀ x ∈ key.path, x.Within S.second.cover n p.length) :
    Abreast S (S.Beside p []) (keyBehindPath value key) (KeyApart S) := by
  have hkey : ∀ key q, Abreast S (S.Beside q []) (keyValue value key) (KeyApart S) :=
    fun key q => (keyValue_abreast hvalue key q).weaken fun _ _ _ _ h => .inl h
  refine .peekOnLine .done (fun b hb => ?_) fun b c _ =>
    .ite (fun _ => .accept (edgeGroup_abreast hgroup hvalue key _)) fun _ =>
    .ite (fun _ => .retreat ?_) fun _ => .retreat (hkey key p)
  · refine .idle hb (keyValue_idles key) ?_
    rintro _ s t rfl hover
    exact .inl ⟨rfl, hover⟩
  · refine .callStray (edges_abreast hn hpath₁ hpath₂) (fun x y => ?_) fun edges q => hkey _ q
    rintro s t (hlanded | ⟨hin, -⟩)
    · refine Apart.landed (keyValue_idles _) (keyValue_idles _) ?_ s t hlanded
      rintro _ _ s t hsame rfl rfl hover
      refine .inl ⟨?_, hover⟩
      simp only [Key.mapMarks_eq, hsame]
    · rw [hgroup] at hin
      cases hin

/-- There is no path in front of a semicolon, and nothing behind it. -/
theorem pathAndKey_semicolon {F : Frame Nat} {v : List Char} {key : Key (Span Nat)}
    (hpath : key.path = none) :
    Ahead F p [] (';' :: v) (path >>= fun path => keyBehindPath value { key with path })
      (Arrives F (';' :: v) (· = key)) := by
  have hsame : { key with path := none } = key := by
    cases key
    cases hpath
    rfl
  refine .call (path_semicolon (b := []) lineBlanks_nil) ?_
  rintro _ q rfl
  rw [hsame]
  exact keyBehindPath_idles key F q _ ⟨[], lineBlanks_nil, .inr ⟨v, rfl⟩⟩

theorem keyBehindAmpersand_semicolon {F : Frame Nat} {v : List Char} {key : Key (Span Nat)}
    (hpath : key.path = none) :
    Ahead F p [] (';' :: v) (keyBehindAmpersand value key) (Arrives F (';' :: v) (· = key)) :=
  .peek (.no (by decide) (.retreat (pathAndKey_semicolon hpath)))

/-- Where the first run ends a key at the end of its text, and the second comes back to the
semicolon with the same key. -/
theorem key_seam {key : Key (Span Nat)} {g : Grammar Nat (Key (Span Nat))}
    (hg : Ahead S.second p [';'] S.behind g (Arrives S.second (';' :: S.behind) (· = key))) :
    Apart S (S.Aside p []) (pure key) g (KeyApart S) := by
  refine .ahead (u := []) (X := fun r s => r = key ∧ s.Rests S.first [])
    (fun s hs => ⟨rfl, p, [], lineBlanks_nil, hs⟩) hg lineBlanks_nil ?_
  rintro _ _ s t ⟨rfl, hs⟩ rfl ht
  exact .inl ⟨rfl, hs, ht⟩

theorem keyBehindAmpersand_abreast (hgroup : S.first.inGroup = false)
    (hvalue : ValueAbreast S value) (key : Key (Span Nat)) (hpath : key.path = none)
    (p : List Char) :
    Abreast S (S.Beside p []) (keyBehindAmpersand value key) (KeyApart S) := by
  refine .peek (key_seam (.no (by decide) (.retreat (pathAndKey_semicolon hpath)))) fun c =>
    .ite (fun _ => .accept (edgeGroup_abreast hgroup hvalue key _)) fun _ => .retreat ?_
  refine .callReads (path_abreast p) (path_reads p) (path_reads p) (fun x y => ?_)
    fun path q hq hin₁ hin₂ => keyBehindPath_abreast hgroup hvalue { key with path } hq hin₁ hin₂
  rintro s t (hlanded | ⟨-, hstranded⟩ | ⟨⟨hin, -⟩, -⟩)
  · refine Apart.landed (keyBehindPath_idles _) (keyBehindPath_idles _) ?_ s t hlanded
    rintro _ _ s t hsame rfl rfl hover
    refine .inl ⟨?_, hover⟩
    simp only [Key.mapMarks_eq, hsame]
  · refine .strays (keyBehindPath_astray S.tail_ne_nil _) hstranded fun _ _ h => .inr ?_
    exact h.leavesText (by decide) (by decide)
  · rw [hgroup] at hin
    cases hin

theorem keyParts_abreast (hgroup : S.first.inGroup = false) (hvalue : ValueAbreast S value)
    (key : Key (Span Nat)) (hpath : key.path = none) (p : List Char) :
    Abreast S (S.Beside p []) (keyParts value key) (KeyApart S) :=
  .peek (key_seam (.no (by decide) (.retreat (keyBehindAmpersand_semicolon hpath)))) fun _ =>
    .ite (fun _ => .accept
      (keyBehindAmpersand_abreast hgroup hvalue { key with ampersand := true } hpath _)) fun _ =>
      .retreat (keyBehindAmpersand_abreast hgroup hvalue key hpath p)

/-- Without places, it does not matter where a key stands. -/
theorem key_moved (key : Key (Span Nat)) (range : Span Nat) :
    Key.mapMarks unplaced { key with range } = key.mapMarks unplaced := by
  simp only [Key.mapMarks_eq]
  rfl

/-- **Keys**: both runs read the same key, or they land where the line is over with the same key up
to its places, or the first run leaves text behind. -/
theorem key_abreast (hgroup : S.first.inGroup = false) (hvalue : ValueAbreast S value)
    (p : List Char) :
    Abreast S (S.Beside p []) (key value) fun a b s t =>
      Landed S (Option.map (Key.mapMarks unplaced)) a b s t ∨ LeavesText S.pairing '}' s := by
  refine .here (.callStray (keyParts_abreast hgroup hvalue _ rfl p) (fun x y => ?_) fun key q =>
    .here (.ite (fun _ => .done) fun _ => .done))
  rintro s t (⟨hsame, hover⟩ | htext)
  · have hnamed : x.isNamed = y.isNamed := by
      rw [← Key.isNamed_mapMarks unplaced x, hsame, Key.isNamed_mapMarks]
    simp only [bind_apply, here, asking_apply, hnamed]
    split
    · refine .apart (.inl ⟨congrArg some ?_, hover⟩)
      exact (key_moved x _).trans (hsame.trans (key_moved y _).symm)
    · exact .apart (.inl ⟨rfl, hover⟩)
  · simp only [bind_apply, here, asking_apply]
    split
    · exact .apart (.inr htext)
    · exact .apart (.inr htext)

end Diagram.Grammar
