import Diagram.Proofs.Json.Text

/-!
Values, keys and maps as JSON values: every tree that can be held is read back from what it is
written as, and every tree that is read can be held.
-/
namespace Diagram

mutual

/-- The positions, edge indexes and fractions in the tree can be held. -/
def Value.Fits : Value Range → Prop
  | .scalar s => s.Fits
  | .sequence s => s.Fits
  | .map m => m.Fits

def Sequence.Fits : Sequence Range → Prop
  | ⟨range, items⟩ => range.Fits ∧ Item.FitsAll items

def Map.Fits : Map Range → Prop
  | ⟨range, entries⟩ => range.Fits ∧ Entry.FitsAll entries

def Item.Fits : Item Range → Prop
  | .comment c => c.range.Fits
  | .blockComment c => c.range.Fits
  | .substitution s => s.Fits
  | .value v => v.Fits

def Entry.Fits : Entry Range → Prop
  | .comment c => c.range.Fits
  | .blockComment c => c.range.Fits
  | .substitution s => s.Fits
  | .key k => k.Fits

def Key.Fits : Key Range → Prop
  | ⟨range, _, path, edges, edgeIndex, edgePath, primary, value⟩ =>
    range.Fits ∧ (∀ p ∈ path, p.Fits) ∧ (∀ e ∈ edges, e.Fits) ∧ (∀ i ∈ edgeIndex, i.Fits) ∧
      (∀ p ∈ edgePath, p.Fits) ∧ (∀ s ∈ primary, s.Fits) ∧ Value.Fits? value

def Value.Fits? : Option (Value Range) → Prop
  | none => True
  | some v => v.Fits

def Item.FitsAll : List (Item Range) → Prop
  | [] => True
  | i :: is => i.Fits ∧ Item.FitsAll is

def Entry.FitsAll : List (Entry Range) → Prop
  | [] => True
  | e :: es => e.Fits ∧ Entry.FitsAll es

end

theorem Value.fits?_iff (v : Option (Value Range)) : Value.Fits? v ↔ ∀ a ∈ v, a.Fits := by
  cases v <;> simp [Value.Fits?]

theorem Item.fitsAll_iff (is : List (Item Range)) : Item.FitsAll is ↔ ∀ i ∈ is, i.Fits := by
  induction is with
  | nil => simp [Item.FitsAll]
  | cons i is ih => simp [Item.FitsAll, ih]

theorem Entry.fitsAll_iff (es : List (Entry Range)) : Entry.FitsAll es ↔ ∀ e ∈ es, e.Fits := by
  induction es with
  | nil => simp [Entry.FitsAll]
  | cons e es ih => simp [Entry.FitsAll, ih]

theorem Value.toJson_ne_null (v : Value Range) : v.toJson ≠ .null := by
  cases v <;> exact nofun

/-- The fields of a key that was written; those that stand for nothing are left out. -/
theorem Key.fields?_toJson (k : Key Range) :
    k.toJson.fields? ["range", "ampersand", "key", "edges", "edge_index", "edge_key", "primary",
        "value"] =
      some [some k.range.toJson, if k.ampersand then some (.boolean true) else none,
        k.path.map KeyPath.toJson,
        if k.edges.isEmpty then none else some (.array (k.edges.map Edge.toJson)),
        k.edgeIndex.map EdgeIndex.toJson, k.edgePath.map KeyPath.toJson,
        k.primary.map Scalar.toJson, some (Value.toJson? k.value)] := by
  obtain ⟨range, ampersand, path, edges, edgeIndex, edgePath, primary, value⟩ := k
  cases ampersand <;> cases edges <;>
    simp [Key.toJson, Json.fields?, Json.members?, Json.lookup_append, Json.lookup_member?,
      Json.lookup]

theorem ampersand_written (b : Bool) :
    Json.default? false Json.boolean? (if b then some (.boolean true) else none) = some b := by
  cases b <;> rfl

theorem edges_written {edges : List (Edge Range)} (h : ∀ e ∈ edges, e.Fits) :
    Json.default? [] (fun j => j.array?.bind fun elements => elements.mapM Edge.ofJson?)
      (if edges.isEmpty then none else some (.array (edges.map Edge.toJson))) = some edges := by
  cases edges with
  | nil => rfl
  | cons e es => exact mapM_map_eq_some fun e he => Edge.ofJson?_toJson (h e he)

mutual

theorem Value.ofJsonWithin?_toJson : (v : Value Range) → v.Fits → ∀ fuel, v.toJson.depth ≤ fuel →
    Value.ofJsonWithin? fuel v.toJson = some v
  | .scalar s, h, fuel, hfuel => by
    obtain ⟨n, rfl, hn⟩ := Json.fuel_of_variant hfuel
    simp [Value.toJson, Value.ofJsonWithin?, Scalar.ofJson?_toJson h]
  | .sequence s, h, fuel, hfuel => by
    obtain ⟨n, rfl, hn⟩ := Json.fuel_of_variant hfuel
    simp [Value.toJson, Value.ofJsonWithin?, Sequence.ofJsonWithin?_toJson s h n hn]
  | .map m, h, fuel, hfuel => by
    obtain ⟨n, rfl, hn⟩ := Json.fuel_of_variant hfuel
    simp [Value.toJson, Value.ofJsonWithin?, Map.ofJsonWithin?_toJson m h n hn]

theorem Sequence.ofJsonWithin?_toJson : (s : Sequence Range) → s.Fits → ∀ fuel,
    s.toJson.depth ≤ fuel → Sequence.ofJsonWithin? fuel s.toJson = some s
  | ⟨range, items⟩, ⟨hrange, hitems⟩, fuel, hfuel => by
    obtain ⟨n, rfl, hn⟩ := Json.fuel_of_object hfuel
    simp only [Json.depthOfMembers, Json.depth] at hn
    have hread := Item.ofJsonWithin?_toJsonAll items hitems n (by omega)
    simp [Sequence.toJson, Sequence.ofJsonWithin?, Json.fields?, Json.members?, Json.lookup,
      Range.ofJson?_toJson hrange, Json.array?, hread]

theorem Map.ofJsonWithin?_toJson : (m : Map Range) → m.Fits → ∀ fuel, m.toJson.depth ≤ fuel →
    Map.ofJsonWithin? fuel m.toJson = some m
  | ⟨range, entries⟩, ⟨hrange, hentries⟩, fuel, hfuel => by
    obtain ⟨n, rfl, hn⟩ := Json.fuel_of_object hfuel
    simp only [Json.depthOfMembers, Json.depth] at hn
    have hread := Entry.ofJsonWithin?_toJsonAll entries hentries n (by omega)
    simp [Map.toJson, Map.ofJsonWithin?, Json.fields?, Json.members?, Json.lookup,
      Range.ofJson?_toJson hrange, Json.array?, hread]

theorem Item.ofJsonWithin?_toJson : (i : Item Range) → i.Fits → ∀ fuel, i.toJson.depth ≤ fuel →
    Item.ofJsonWithin? fuel i.toJson = some i
  | .comment c, h, fuel, hfuel => by
    obtain ⟨n, rfl, hn⟩ := Json.fuel_of_variant hfuel
    simp [Item.toJson, Item.ofJsonWithin?, Comment.ofJson?_toJson h]
  | .blockComment c, h, fuel, hfuel => by
    obtain ⟨n, rfl, hn⟩ := Json.fuel_of_variant hfuel
    simp [Item.toJson, Item.ofJsonWithin?, Comment.ofJson?_toJson h]
  | .substitution s, h, fuel, hfuel => by
    obtain ⟨n, rfl, hn⟩ := Json.fuel_of_variant hfuel
    simp [Item.toJson, Item.ofJsonWithin?, Substitution.ofJson?_toJson h]
  | .value v, h, fuel, hfuel => by
    obtain ⟨n, rfl, hn⟩ := Json.fuel_of_variant hfuel
    simp [Item.toJson, Item.ofJsonWithin?, Value.ofJsonWithin?_toJson v h n hn]

theorem Entry.ofJsonWithin?_toJson : (e : Entry Range) → e.Fits → ∀ fuel,
    e.toJson.depth ≤ fuel → Entry.ofJsonWithin? fuel e.toJson = some e
  | .comment c, h, fuel, hfuel => by
    obtain ⟨n, rfl, hn⟩ := Json.fuel_of_variant hfuel
    simp [Entry.toJson, Entry.ofJsonWithin?, Comment.ofJson?_toJson h]
  | .blockComment c, h, fuel, hfuel => by
    obtain ⟨n, rfl, hn⟩ := Json.fuel_of_variant hfuel
    simp [Entry.toJson, Entry.ofJsonWithin?, Comment.ofJson?_toJson h]
  | .substitution s, h, fuel, hfuel => by
    obtain ⟨n, rfl, hn⟩ := Json.fuel_of_variant hfuel
    simp [Entry.toJson, Entry.ofJsonWithin?, Substitution.ofJson?_toJson h]
  | .key k, h, fuel, hfuel => by
    obtain ⟨n, rfl, hn⟩ := Json.fuel_of_variant hfuel
    simp [Entry.toJson, Entry.ofJsonWithin?, Key.ofJsonWithin?_toJson k h n hn]

theorem Key.ofJsonWithin?_toJson : (k : Key Range) → k.Fits → ∀ fuel, k.toJson.depth ≤ fuel →
    Key.ofJsonWithin? fuel k.toJson = some k
  | ⟨range, ampersand, path, edges, edgeIndex, edgePath, primary, value⟩,
      ⟨hrange, hpath, hedges, hindex, hedgePath, hprimary, hvalue⟩, fuel, hfuel => by
    obtain ⟨n, rfl, hn⟩ := Json.fuel_of_object hfuel
    simp only [Json.depthOfMembers_append, Json.depthOfMembers] at hn
    have hvalue' := Value.ofJsonWithin?_toJson? value hvalue n (by omega)
    have hpath' := Json.optional?_map (fun p _ => p.toJson_ne_null)
      (fun p hp => KeyPath.ofJson?_toJson (hpath p hp))
    have hindex' := Json.optional?_map (fun i _ => i.toJson_ne_null)
      (fun i hi => EdgeIndex.ofJson?_toJson (hindex i hi))
    have hedgePath' := Json.optional?_map (fun p _ => p.toJson_ne_null)
      (fun p hp => KeyPath.ofJson?_toJson (hedgePath p hp))
    have hprimary' := Json.optional?_map (fun s _ => s.toJson_ne_null)
      (fun s hs => Scalar.ofJson?_toJson (hprimary s hs))
    rw [Key.ofJsonWithin?, Key.fields?_toJson]
    simp only [Option.bind_eq_bind, Option.bind_some, Range.ofJson?_toJson hrange,
      ampersand_written, hpath', edges_written hedges, hindex', hedgePath', hprimary', hvalue']
    rfl

theorem Value.ofJsonWithin?_toJson? : (v : Option (Value Range)) → Value.Fits? v → ∀ fuel,
    (Value.toJson? v).depth ≤ fuel →
      Json.optional? (Value.ofJsonWithin? fuel) (some (Value.toJson? v)) = some v
  | none, _, _, _ => rfl
  | some v, h, fuel, hfuel => by
    rw [Value.toJson?, Json.optional?_of_ne_null v.toJson_ne_null,
      Value.ofJsonWithin?_toJson v h fuel hfuel, Option.map_some]

theorem Item.ofJsonWithin?_toJsonAll : (is : List (Item Range)) → Item.FitsAll is → ∀ fuel,
    Json.depthOfElements (Item.toJsonAll is) ≤ fuel →
      (Item.toJsonAll is).mapM (Item.ofJsonWithin? fuel) = some is
  | [], _, _, _ => rfl
  | i :: is, ⟨hi, his⟩, fuel, hfuel => by
    rw [Item.toJsonAll, Json.depthOfElements] at hfuel
    rw [Item.toJsonAll, List.mapM_cons, Item.ofJsonWithin?_toJson i hi fuel (by omega),
      Item.ofJsonWithin?_toJsonAll is his fuel (by omega)]
    rfl

theorem Entry.ofJsonWithin?_toJsonAll : (es : List (Entry Range)) → Entry.FitsAll es → ∀ fuel,
    Json.depthOfElements (Entry.toJsonAll es) ≤ fuel →
      (Entry.toJsonAll es).mapM (Entry.ofJsonWithin? fuel) = some es
  | [], _, _, _ => rfl
  | e :: es, ⟨he, hes⟩, fuel, hfuel => by
    rw [Entry.toJsonAll, Json.depthOfElements] at hfuel
    rw [Entry.toJsonAll, List.mapM_cons, Entry.ofJsonWithin?_toJson e he fuel (by omega),
      Entry.ofJsonWithin?_toJsonAll es hes fuel (by omega)]
    rfl

end

mutual

/-- Whatever is read as a value can be held. -/
theorem Value.fits_of_ofJsonWithin? : (fuel : Nat) → (j : Json) →
    Yields (Value.ofJsonWithin? fuel j) Value.Fits
  | 0, _ => .none
  | fuel + 1, j => by
    rw [Value.ofJsonWithin?]
    refine .skip fun variant => ?_
    split
    · exact .bind (Scalar.fits_of_ofJson? _) fun s hs => .pure hs
    · exact .bind (Sequence.fits_of_ofJsonWithin? fuel _) fun s hs => .pure hs
    · exact .bind (Map.fits_of_ofJsonWithin? fuel _) fun m hm => .pure hm
    · exact .none

theorem Sequence.fits_of_ofJsonWithin? : (fuel : Nat) → (j : Json) →
    Yields (Sequence.ofJsonWithin? fuel j) Sequence.Fits
  | 0, _ => .none
  | fuel + 1, j => by
    rw [Sequence.ofJsonWithin?]
    refine .skip fun fields => ?_
    split
    · exact .bind (Range.fits_of_ofJson? _) fun range hrange => .skip fun elements =>
        .bind (.mapM (Item.fits_of_ofJsonWithin? fuel) elements) fun items hitems =>
          .pure ⟨hrange, (Item.fitsAll_iff items).mpr hitems⟩
    · exact .none

theorem Map.fits_of_ofJsonWithin? : (fuel : Nat) → (j : Json) →
    Yields (Map.ofJsonWithin? fuel j) Map.Fits
  | 0, _ => .none
  | fuel + 1, j => by
    rw [Map.ofJsonWithin?]
    refine .skip fun fields => ?_
    split
    · exact .bind (Range.fits_of_ofJson? _) fun range hrange => .skip fun elements =>
        .bind (.mapM (Entry.fits_of_ofJsonWithin? fuel) elements) fun entries hentries =>
          .pure ⟨hrange, (Entry.fitsAll_iff entries).mpr hentries⟩
    · exact .none

theorem Item.fits_of_ofJsonWithin? : (fuel : Nat) → (j : Json) →
    Yields (Item.ofJsonWithin? fuel j) Item.Fits
  | 0, _ => .none
  | fuel + 1, j => by
    rw [Item.ofJsonWithin?]
    refine .skip fun variant => ?_
    split
    · exact .bind (Comment.fits_of_ofJson? _) fun c hc => .pure hc
    · exact .bind (Comment.fits_of_ofJson? _) fun c hc => .pure hc
    · exact .bind (Substitution.fits_of_ofJson? _) fun s hs => .pure hs
    · exact .bind (Value.fits_of_ofJsonWithin? fuel _) fun v hv => .pure hv
    · exact .none

theorem Entry.fits_of_ofJsonWithin? : (fuel : Nat) → (j : Json) →
    Yields (Entry.ofJsonWithin? fuel j) Entry.Fits
  | 0, _ => .none
  | fuel + 1, j => by
    rw [Entry.ofJsonWithin?]
    refine .skip fun variant => ?_
    split
    · exact .bind (Comment.fits_of_ofJson? _) fun c hc => .pure hc
    · exact .bind (Comment.fits_of_ofJson? _) fun c hc => .pure hc
    · exact .bind (Substitution.fits_of_ofJson? _) fun s hs => .pure hs
    · exact .bind (Key.fits_of_ofJsonWithin? fuel _) fun k hk => .pure hk
    · exact .none

theorem Key.fits_of_ofJsonWithin? : (fuel : Nat) → (j : Json) →
    Yields (Key.ofJsonWithin? fuel j) Key.Fits
  | 0, _ => .none
  | fuel + 1, j => by
    have hedges : ∀ j : Json, Yields (do (← j.array?).mapM Edge.ofJson?)
        fun edges => ∀ e ∈ edges, e.Fits :=
      fun j => .skip fun elements => .mapM Edge.fits_of_ofJson? elements
    rw [Key.ofJsonWithin?]
    refine .skip fun fields => ?_
    split
    · refine .bind (Range.fits_of_ofJson? _) fun range hrange => .skip fun ampersand => ?_
      refine .bind (.optional? KeyPath.fits_of_ofJson? _) fun path hpath => ?_
      refine .bind (.default? (by simp) hedges _) fun edges hedges => ?_
      refine .bind (.optional? EdgeIndex.fits_of_ofJson? _) fun index hindex => ?_
      refine .bind (.optional? KeyPath.fits_of_ofJson? _) fun edgePath hedgePath => ?_
      refine .bind (.optional? Scalar.fits_of_ofJson? _) fun primary hprimary => ?_
      refine .bind (.optional? (Value.fits_of_ofJsonWithin? fuel) _) fun value hvalue => ?_
      exact .pure ⟨hrange, hpath, hedges, hindex, hedgePath, hprimary,
        (Value.fits?_iff value).mpr hvalue⟩
    · exact .none

end

theorem Map.ofJson?_toJson {m : Map Range} (h : m.Fits) : Map.ofJson? m.toJson = some m :=
  Map.ofJsonWithin?_toJson m h _ (Nat.le_refl _)

theorem Map.fits_of_ofJson? (j : Json) : Yields (Map.ofJson? j) Map.Fits :=
  Map.fits_of_ofJsonWithin? _ j

end Diagram
