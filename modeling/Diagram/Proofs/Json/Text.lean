import Diagram.Proofs.Json.Parts

/-!
Texts, paths, edges and scalars as JSON values. The readers of texts have a bound on how many
values stand inside each other; the depth of what a text is written as is enough.
-/
namespace Diagram

/-! ## Texts and substitutions -/

mutual

/-- The positions in the text can be held. -/
def Text.Fits : Text Range → Prop
  | .unquoted range pieces => range.Fits ∧ Piece.FitsAll pieces
  | .doubleQuoted range pieces => range.Fits ∧ Piece.FitsAll pieces
  | .singleQuoted range _ => range.Fits
  | .block range _ _ _ => range.Fits

def Piece.Fits : Piece Range → Prop
  | .literal _ _ => True
  | .substitution s => s.Fits

def Substitution.Fits : Substitution Range → Prop
  | ⟨range, _, path⟩ => range.Fits ∧ Text.FitsAll path

def Piece.FitsAll : List (Piece Range) → Prop
  | [] => True
  | p :: ps => p.Fits ∧ Piece.FitsAll ps

def Text.FitsAll : List (Text Range) → Prop
  | [] => True
  | t :: ts => t.Fits ∧ Text.FitsAll ts

end

theorem Piece.fitsAll_iff (ps : List (Piece Range)) : Piece.FitsAll ps ↔ ∀ p ∈ ps, p.Fits := by
  induction ps with
  | nil => simp [Piece.FitsAll]
  | cons p ps ih => simp [Piece.FitsAll, ih]

theorem Text.fitsAll_iff (ts : List (Text Range)) : Text.FitsAll ts ↔ ∀ t ∈ ts, t.Fits := by
  induction ts with
  | nil => simp [Text.FitsAll]
  | cons t ts ih => simp [Text.FitsAll, ih]

/-- The range and the pieces of a text are read back if the pieces are. -/
theorem Piece.pairOfJsonWithin?_toJson {fuel : Nat} {range : Range} {pieces : List (Piece Range)}
    (hrange : range.Fits)
    (hpieces : (Piece.toJsonAll pieces).mapM (Piece.ofJsonWithin? fuel) = some pieces) :
    Piece.pairOfJsonWithin? (fuel + 1) (.object
      [("range", range.toJson), ("value", .array (Piece.toJsonAll pieces))]) =
      some (range, pieces) := by
  simp [Piece.pairOfJsonWithin?, Json.fields?, Json.members?, Json.lookup,
    Range.ofJson?_toJson hrange, Json.array?, hpieces]

mutual

theorem Text.ofJsonWithin?_toJson : (t : Text Range) → t.Fits → ∀ fuel, t.toJson.depth ≤ fuel →
    Text.ofJsonWithin? fuel t.toJson = some t
  | .unquoted range pieces, ⟨hrange, hpieces⟩, fuel, hfuel => by
    obtain ⟨n, rfl, hn⟩ := Json.fuel_of_variant hfuel
    obtain ⟨n, rfl, hn⟩ := Json.fuel_of_object hn
    simp only [Json.depthOfMembers, Json.depth] at hn
    have hread := Piece.ofJsonWithin?_toJsonAll pieces hpieces n (by omega)
    simp [Text.toJson, Text.ofJsonWithin?, Piece.pairOfJsonWithin?_toJson hrange hread]
  | .doubleQuoted range pieces, ⟨hrange, hpieces⟩, fuel, hfuel => by
    obtain ⟨n, rfl, hn⟩ := Json.fuel_of_variant hfuel
    obtain ⟨n, rfl, hn⟩ := Json.fuel_of_object hn
    simp only [Json.depthOfMembers, Json.depth] at hn
    have hread := Piece.ofJsonWithin?_toJsonAll pieces hpieces n (by omega)
    simp [Text.toJson, Text.ofJsonWithin?, Piece.pairOfJsonWithin?_toJson hrange hread]
  | .singleQuoted range text, hrange, fuel, hfuel => by
    obtain ⟨n, rfl, hn⟩ := Json.fuel_of_variant hfuel
    simp [Text.toJson, Text.ofJsonWithin?, Json.fields?, Json.members?, Json.lookup,
      Range.ofJson?_toJson hrange, Json.text?]
  | .block range quote tag text, hrange, fuel, hfuel => by
    obtain ⟨n, rfl, hn⟩ := Json.fuel_of_variant hfuel
    simp [Text.toJson, Text.ofJsonWithin?, Json.fields?, Json.members?, Json.lookup,
      Range.ofJson?_toJson hrange, Json.text?]

theorem Piece.ofJsonWithin?_toJson : (p : Piece Range) → p.Fits → ∀ fuel, p.toJson.depth ≤ fuel →
    Piece.ofJsonWithin? fuel p.toJson = some p
  | .literal value raw, _, fuel, hfuel => by
    obtain ⟨n, rfl, hn⟩ := Json.fuel_of_variant hfuel
    simp [Piece.toJson, Piece.ofJsonWithin?, Json.members?, Json.lookup, Json.text?]
  | .substitution s, hs, fuel, hfuel => by
    obtain ⟨n, rfl, hn⟩ := Json.fuel_of_variant hfuel
    have hread := Substitution.ofJsonWithin?_toJson s hs n hn
    simp [Piece.toJson, Piece.ofJsonWithin?, hread]

theorem Substitution.ofJsonWithin?_toJson : (s : Substitution Range) → s.Fits → ∀ fuel,
    s.toJson.depth ≤ fuel → Substitution.ofJsonWithin? fuel s.toJson = some s
  | ⟨range, spread, path⟩, ⟨hrange, hpath⟩, fuel, hfuel => by
    obtain ⟨n, rfl, hn⟩ := Json.fuel_of_object hfuel
    simp only [Json.depthOfMembers, Json.depth] at hn
    have hread := Text.ofJsonWithin?_toJsonAll path hpath n (by omega)
    simp [Substitution.toJson, Substitution.ofJsonWithin?, Json.fields?, Json.members?, Json.lookup,
      Range.ofJson?_toJson hrange, Json.boolean?, Json.array?, hread]

theorem Piece.ofJsonWithin?_toJsonAll : (ps : List (Piece Range)) → Piece.FitsAll ps → ∀ fuel,
    Json.depthOfElements (Piece.toJsonAll ps) ≤ fuel →
      (Piece.toJsonAll ps).mapM (Piece.ofJsonWithin? fuel) = some ps
  | [], _, _, _ => rfl
  | p :: ps, ⟨hp, hps⟩, fuel, hfuel => by
    rw [Piece.toJsonAll, Json.depthOfElements] at hfuel
    rw [Piece.toJsonAll, List.mapM_cons, Piece.ofJsonWithin?_toJson p hp fuel (by omega),
      Piece.ofJsonWithin?_toJsonAll ps hps fuel (by omega)]
    rfl

theorem Text.ofJsonWithin?_toJsonAll : (ts : List (Text Range)) → Text.FitsAll ts → ∀ fuel,
    Json.depthOfElements (Text.toJsonAll ts) ≤ fuel →
      (Text.toJsonAll ts).mapM (Text.ofJsonWithin? fuel) = some ts
  | [], _, _, _ => rfl
  | t :: ts, ⟨ht, hts⟩, fuel, hfuel => by
    rw [Text.toJsonAll, Json.depthOfElements] at hfuel
    rw [Text.toJsonAll, List.mapM_cons, Text.ofJsonWithin?_toJson t ht fuel (by omega),
      Text.ofJsonWithin?_toJsonAll ts hts fuel (by omega)]
    rfl

end

mutual

/-- Whatever is read as a text can be held. -/
theorem Text.fits_of_ofJsonWithin? : (fuel : Nat) → (j : Json) →
    Yields (Text.ofJsonWithin? fuel j) Text.Fits
  | 0, _ => .none
  | fuel + 1, j => by
    rw [Text.ofJsonWithin?]
    refine .skip fun variant => ?_
    split
    · exact .bind (Piece.fits_of_pairOfJsonWithin? fuel _) fun pair hpair => .pure hpair
    · exact .bind (Piece.fits_of_pairOfJsonWithin? fuel _) fun pair hpair => .pure hpair
    · refine .skip fun fields => ?_
      split
      · exact .bind (Range.fits_of_ofJson? _) fun range hrange => .skip fun text => .pure hrange
      · exact .none
    · refine .skip fun fields => ?_
      split
      · exact .bind (Range.fits_of_ofJson? _) fun range hrange =>
          .skip fun quote => .skip fun tag => .skip fun text => .pure hrange
      · exact .none
    · exact .none

theorem Piece.fits_of_pairOfJsonWithin? : (fuel : Nat) → (j : Json) →
    Yields (Piece.pairOfJsonWithin? fuel j) fun pair => pair.1.Fits ∧ Piece.FitsAll pair.2
  | 0, _ => .none
  | fuel + 1, j => by
    rw [Piece.pairOfJsonWithin?]
    refine .skip fun fields => ?_
    split
    · exact .bind (Range.fits_of_ofJson? _) fun range hrange => .skip fun elements =>
        .bind (.mapM (Piece.fits_of_ofJsonWithin? fuel) elements) fun pieces hpieces =>
          .pure ⟨hrange, (Piece.fitsAll_iff pieces).mpr hpieces⟩
    · exact .none

theorem Piece.fits_of_ofJsonWithin? : (fuel : Nat) → (j : Json) →
    Yields (Piece.ofJsonWithin? fuel j) Piece.Fits
  | 0, _ => .none
  | fuel + 1, j => by
    rw [Piece.ofJsonWithin?]
    refine .skip fun variant => ?_
    split
    · refine .skip fun fields => ?_
      split
      · exact .skip fun value => .skip fun raw => .pure trivial
      · exact .none
    · exact .bind (Substitution.fits_of_ofJsonWithin? fuel _) fun s hs => .pure hs
    · exact .none

theorem Substitution.fits_of_ofJsonWithin? : (fuel : Nat) → (j : Json) →
    Yields (Substitution.ofJsonWithin? fuel j) Substitution.Fits
  | 0, _ => .none
  | fuel + 1, j => by
    rw [Substitution.ofJsonWithin?]
    refine .skip fun fields => ?_
    split
    · exact .bind (Range.fits_of_ofJson? _) fun range hrange => .skip fun spread =>
        .skip fun elements => .bind (.mapM (Text.fits_of_ofJsonWithin? fuel) elements)
          fun path hpath => .pure ⟨hrange, (Text.fitsAll_iff path).mpr hpath⟩
    · exact .none

end

theorem Text.ofJson?_toJson {t : Text Range} (h : t.Fits) : Text.ofJson? t.toJson = some t :=
  Text.ofJsonWithin?_toJson t h _ (Nat.le_refl _)

theorem Text.fits_of_ofJson? (j : Json) : Yields (Text.ofJson? j) Text.Fits :=
  Text.fits_of_ofJsonWithin? _ j

theorem Substitution.ofJson?_toJson {s : Substitution Range} (h : s.Fits) :
    Substitution.ofJson? s.toJson = some s :=
  Substitution.ofJsonWithin?_toJson s h _ (Nat.le_refl _)

theorem Substitution.fits_of_ofJson? (j : Json) :
    Yields (Substitution.ofJson? j) Substitution.Fits :=
  Substitution.fits_of_ofJsonWithin? _ j

theorem Text.toJsonAll_eq (ts : List (Text Range)) : Text.toJsonAll ts = ts.map Text.toJson := by
  induction ts with
  | nil => rfl
  | cons t ts ih => rw [Text.toJsonAll, ih, List.map_cons]

/-! ## Paths -/

namespace KeyPath

def Fits (path : KeyPath Range) : Prop :=
  path.range.Fits ∧ ∀ t ∈ path.segments, t.Fits

theorem toJson_ne_null (path : KeyPath Range) : path.toJson ≠ .null := nofun

theorem ofJson?_toJson {path : KeyPath Range} (h : path.Fits) :
    ofJson? path.toJson = some path := by
  have hsegments := mapM_map_eq_some fun t ht => Text.ofJson?_toJson (h.2 t ht)
  simp [ofJson?, toJson, Json.fields?, Json.members?, Json.lookup, Range.ofJson?_toJson h.1,
    Json.array?, Text.toJsonAll_eq, hsegments]

theorem fits_of_ofJson? (j : Json) : Yields (ofJson? j) Fits := by
  rw [ofJson?]
  refine .skip fun fields => ?_
  split
  · exact .bind (Range.fits_of_ofJson? _) fun range hrange => .skip fun elements =>
      .bind (.mapM Text.fits_of_ofJson? elements) fun segments hsegments =>
        .pure ⟨hrange, hsegments⟩
  · exact .none

end KeyPath

/-! ## Edges -/

namespace Edge

structure Fits (e : Edge Range) : Prop where
  range : e.range.Fits
  source : ∀ path ∈ e.source, path.Fits
  target : ∀ path ∈ e.target, path.Fits

theorem ofJson?_toJson {e : Edge Range} (h : e.Fits) : ofJson? e.toJson = some e := by
  have hsource := Json.optional?_nullable (fun path _ => path.toJson_ne_null)
    (fun path hpath => KeyPath.ofJson?_toJson (h.source path hpath))
  have htarget := Json.optional?_nullable (fun path _ => path.toJson_ne_null)
    (fun path hpath => KeyPath.ofJson?_toJson (h.target path hpath))
  simp [ofJson?, toJson, Json.fields?, Json.members?, Json.lookup, Range.ofJson?_toJson h.range,
    Arrowhead.ofJson?_toJson, hsource, htarget]

theorem fits_of_ofJson? (j : Json) : Yields (ofJson? j) Fits := by
  rw [ofJson?]
  refine .skip fun fields => ?_
  split
  · exact .bind (Range.fits_of_ofJson? _) fun range hrange =>
      .bind (.optional? KeyPath.fits_of_ofJson? _) fun source hsource => .skip fun sourceHead =>
        .bind (.optional? KeyPath.fits_of_ofJson? _) fun target htarget => .skip fun targetHead =>
          .pure ⟨hrange, hsource, htarget⟩
  · exact .none

end Edge

namespace EdgeIndex

structure Fits (i : EdgeIndex Range) : Prop where
  range : i.range.Fits
  choice : i.choice.Fits

theorem toJson_ne_null (i : EdgeIndex Range) : i.toJson ≠ .null := nofun

theorem ofJson?_toJson {i : EdgeIndex Range} (h : i.Fits) : ofJson? i.toJson = some i := by
  simp [ofJson?, toJson, Json.fields?, Json.members?, Json.lookup, Range.ofJson?_toJson h.range,
    EdgeChoice.ofJson?_toJson h.choice]

theorem fits_of_ofJson? (j : Json) : Yields (ofJson? j) Fits := by
  rw [ofJson?]
  refine .skip fun fields => ?_
  split
  · exact .bind (Range.fits_of_ofJson? _) fun range hrange =>
      .bind (EdgeChoice.fits_of_ofJson? _) fun choice hchoice => .pure ⟨hrange, hchoice⟩
  · exact .none

end EdgeIndex

/-! ## Scalars -/

namespace Scalar

def Fits : Scalar Range → Prop
  | .null range => range.Fits
  | .boolean range _ => range.Fits
  | .number range _ value => range.Fits ∧ value.Fits
  | .text t => t.Fits

theorem toJson_ne_null (s : Scalar Range) : s.toJson ≠ .null := by
  cases s <;> exact nofun

theorem ofJson?_toJson {s : Scalar Range} (h : s.Fits) : ofJson? s.toJson = some s := by
  cases s with
  | null range =>
    simp [ofJson?, toJson, Json.fields?, Json.members?, Json.lookup,
      Range.ofJson?_toJson h]
  | boolean range value =>
    simp [ofJson?, toJson, Json.fields?, Json.members?, Json.lookup,
      Range.ofJson?_toJson h, Json.boolean?]
  | number range raw value =>
    simp [ofJson?, toJson, Json.fields?, Json.members?, Json.lookup,
      Range.ofJson?_toJson h.1, Json.text?, Fraction.ofJson?_toJson h.2]
  | text t => simp [ofJson?, toJson, Text.ofJson?_toJson h]

theorem fits_of_ofJson? (j : Json) : Yields (ofJson? j) Fits := by
  rw [ofJson?]
  refine .skip fun variant => ?_
  split
  · refine .skip fun fields => ?_
    split
    · exact .bind (Range.fits_of_ofJson? _) fun range hrange => .pure hrange
    · exact .none
  · refine .skip fun fields => ?_
    split
    · exact .bind (Range.fits_of_ofJson? _) fun range hrange => .skip fun value => .pure hrange
    · exact .none
  · refine .skip fun fields => ?_
    split
    · exact .bind (Range.fits_of_ofJson? _) fun range hrange => .skip fun raw =>
        .bind (Fraction.fits_of_ofJson? _) fun value hvalue => .pure ⟨hrange, hvalue⟩
    · exact .none
  · exact .bind (Text.fits_of_ofJson? _) fun t ht => .pure ht
  · exact .none

end Scalar

end Diagram
