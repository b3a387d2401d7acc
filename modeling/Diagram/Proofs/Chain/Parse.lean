import Diagram.Proofs.Chain.Edge
import Diagram.Proofs.Compact.Numeral
import Diagram.Proofs.Separator.Parse

/-!
Texts that are one chain of connections, alone or as an edge group with an index and a path behind
it, are read as the edges of the chain, and nothing is wrong with them.
-/
namespace Diagram

/-- The key of a chain that stands alone. -/
def chainKey (first : String) (hops : List (Hop × String)) : Key Unit :=
  ⟨(), false, none, chainEdges first hops, none, none, none, none⟩

/-- The key of a chain in an edge group with an index and a path of one name. -/
def groupKey (first : String) (hops : List (Hop × String)) (n : Nat) (name : String) : Key Unit :=
  ⟨(), false, none, chainEdges first hops, some ⟨(), .nth n⟩, some (wordPath name), none, none⟩

/-- A chain in an edge group, with an index and a path of one name behind it. -/
def groupText (first : String) (hops : List (Hop × String)) (digits : List Char) (name : String) :
    List Char :=
  '(' :: (chainText first hops ++ ')' :: '[' :: (digits ++ ']' :: '.' :: name.toList))

namespace Grammar

variable {π : Type} {F : Frame π} {p u : List Char} {value : Grammar π (Option (Value (Span π)))}
  {first : String} {hops : List (Hop × String)}

theorem edges_word (hhops : ProperHops hops) (hu : EndsChain F u) {k : KeyPath (Span π)}
    (hk : k.mapMarks (fun _ => ()) = wordPath first) :
    Ahead F p [] (behindName u hops) (edges (some k))
      (Arrives F u fun es => es.map (Edge.mapMarks fun _ => ()) = chainEdges first hops) := by
  refine .call (edges_chain hhops hu hk) fun chain q h => .done ?_
  obtain ⟨new, hedges, hnew⟩ := h
  rwa [hedges, List.append_nil, List.reverse_reverse]

/-! ## Chains that stand alone -/

theorem keyBehindPath_chain {hop : Hop} {next : String} {rest : List (Hop × String)}
    (hhops : ProperHops ((hop, next) :: rest)) (hhead : hop.sourceHead ≠ .filled)
    {range : Span π} {k : KeyPath (Span π)} (hk : k.mapMarks (fun _ => ()) = wordPath first) :
    Ahead F p [] (behindName [] ((hop, next) :: rest)) (keyBehindPath value (.plain range k none))
      (Arrives F [] fun key =>
        key.mapMarks (fun _ => ()) = chainKey first ((hop, next) :: rest)) := by
  have hedges : ∀ p, Ahead F p [] (behindName [] ((hop, next) :: rest)) (edges (some k))
      (Arrives F [] fun es =>
        es.map (Edge.mapMarks fun _ => ()) = chainEdges first ((hop, next) :: rest)) := fun _ =>
    edges_word hhops .source hk
  obtain ⟨c, n, hwritten, -, hvisible, hc⟩ := (hhops _ List.mem_cons_self).1.written_cons
  simp only [behindName, hwritten, List.cons_append] at hedges ⊢
  refine .peekOnLine (b := []) (by simp) hvisible (.no ?_ (.yes ?_ (.retreat ?_)))
  · rcases hc hhead with rfl | rfl <;> decide
  · rcases hc hhead with rfl | rfl <;> decide
  refine .call (by simpa [Key.plain] using hedges p) fun es q hes => ?_
  refine .peekLineEnd (by simp [EndsLine]) (.done ?_)
  rw [Key.mapMarks_eq, chainKey, ← hes]
  rfl

theorem keyParts_chain {next : String} {hop : Hop} {rest : List (Hop × String)}
    (hfirst : IsWord first) (hhops : ProperHops ((hop, next) :: rest))
    (hhead : hop.sourceHead ≠ .filled) {range : Span π} :
    Ahead F p [] (chainText first ((hop, next) :: rest)) (keyParts value (.empty range))
      (Arrives F [] fun key =>
        key.mapMarks (fun _ => ()) = chainKey first ((hop, next) :: rest)) := by
  obtain ⟨c, w, hw, hc⟩ := hfirst.exists_cons
  have hpath : ∀ p, Ahead F p [] (chainText first ((hop, next) :: rest)) path
      (Arrives F (behindName [] ((hop, next) :: rest)) fun r =>
        ∃ k, r = some k ∧ k.mapMarks (fun _ => ()) = wordPath first) := fun p => by
    simpa using path_chain (p := p) (a := []) (.inl rfl) hfirst hhops .source
  simp only [chainText, hw, List.cons_append] at hpath ⊢
  refine keyParts_path ⟨ne_of_wordCharacter hc rfl, ne_of_wordCharacter hc rfl⟩ hpath ?_
  exact fun k q hk => keyBehindPath_chain hhops hhead hk

/-! ## Chains in edge groups -/

theorem Ahead.acceptBehind {β : Type} {c : Char} {f : Behind → Grammar π β} {Q : β → State π → Prop}
    (hvisible : isBlank c = false) (h : Ahead F (c :: p) [] u (f .found) Q) :
    Ahead F p [] (c :: u) (Grammar.acceptBehind c >>= f) Q := by
  rw [Grammar.acceptBehind, bind_assoc]
  refine .peekOnLine (b := []) (by simp) hvisible ?_
  simp only [if_true, bind_assoc, pure_bind]
  exact .accept h

theorem Ahead.setGroup {β : Type} {b : Bool} {f : Unit → Grammar π β} {Q : β → State π → Prop}
    (h : Ahead (F.grouped b) p [] u (f ()) Q) : Ahead F p [] u (Grammar.setGroup b >>= f) Q :=
  fun _ hs => h _ ⟨⟨hs.stands.reader, hs.stands.depth, hs.stands.limit, rfl⟩,
    hs.unread, hs.problems⟩

theorem digit_visible {c : Char} (hc : c.isDigit = true) : isBlank c = false :=
  isNumeric_visible (by simp [isNumeric, Char.isAlphanum, hc])

/-- The digits of an index go on up to the closing bracket. -/
theorem indexDigits_read {start : π} {digits gathered : List Char}
    (hdigits : ∀ c ∈ digits, c.isDigit = true) :
    Ahead F p [] (digits ++ ']' :: u) (repeating (indexDigit start) (some gathered))
      (Arrives F (']' :: u) fun r => r = some (digits.reverse ++ gathered)) := by
  induction digits generalizing gathered p with
  | nil =>
    refine .stop (.peekOnLine (b := []) (by simp) (by decide) ?_)
    exact .yes rfl (.retreat (.done ⟨_, rfl, rfl⟩))
  | cons c digits ih =>
    have hc := hdigits c List.mem_cons_self
    have hbracket : c ≠ ']' := by
      rintro rfl
      cases hc
    refine .again (v := digits ++ ']' :: u) (R := fun r => r = some (c :: gathered)) ?_ (by simp)
      fun r q hr => ?_
    · refine .peekOnLine (b := []) (by simp) (digit_visible hc) ?_
      exact .no hbracket (.accept (.yes hc (.done ⟨_, rfl, rfl⟩)))
    · subst hr
      refine .mono (ih fun x hx => hdigits x (List.mem_cons_of_mem c hx)) fun r h => ?_
      rw [h]
      simp

/-- An index of digits has their value, or the largest number if that is too large. -/
theorem edgeIndex_digits {digits : List Char} (hne : digits ≠ [])
    (hdigits : ∀ c ∈ digits, c.isDigit = true) :
    Ahead F ('[' :: p) [] (digits ++ ']' :: u) edgeIndex (Arrives F u fun r =>
      r.map (EdgeIndex.mapMarks fun _ => ()) =
        some ⟨(), .nth (min (Nat.ofDigitChars 10 digits 0) maxWord)⟩) := by
  obtain ⟨c, cs, rfl⟩ := List.exists_cons_of_ne_nil hne
  have hc := hdigits c List.mem_cons_self
  refine .placeOf (by decide) (.call (v := ']' :: u) (R := fun r =>
    r = some (.nth (min (Nat.ofDigitChars 10 (c :: cs) 0) maxWord))) ?_ fun r q hr => ?_)
  · refine .peekOnLine (b := []) (by simp) (digit_visible hc) (.yes hc (.accept ?_))
    refine .call (indexDigits_read fun x hx => hdigits x (List.mem_cons_of_mem c hx))
      fun r q hr => ?_
    refine .done ?_
    rw [hr, Option.map_some, decimalValue_eq]
    simp
  · subst hr
    refine .call (v := u) (R := fun _ => True) ?_ fun _ q' _ => .here (.done rfl)
    refine .peekOnLine (b := []) (by simp) (by decide) (.yes rfl ?_)
    rw [← bind_pure accept]
    exact .accept (.done trivial)

/-- Behind its opening parenthesis, an edge group is read up to the end of its path. -/
theorem groupParts_chain (hgroup : F.inGroup = true) (hfirst : IsWord first)
    (hhops : ProperHops hops) {digits : List Char} (hne : digits ≠ [])
    (hdigits : ∀ c ∈ digits, c.isDigit = true) {name : String} (hname : IsWord name)
    {range : Span π} :
    Ahead F p []
      (chainText first hops ++ ')' :: '[' :: (digits ++ ']' :: '.' :: name.toList))
      (groupParts (.empty range)) (Arrives F [] fun r => r.2 = true ∧
        r.1.mapMarks (fun _ => ()) =
          groupKey first hops (min (Nat.ofDigitChars 10 digits 0) maxWord) name) := by
  have hend : ∀ v, EndsChain F (')' :: '[' :: v) := fun _ => .group hgroup
  refine .call (path_chain (a := []) (.inl rfl) hfirst hhops (hend _)) fun r q hr => ?_
  obtain ⟨k, rfl, hk⟩ := hr
  refine .call (edges_word hhops (hend _) hk) fun es q hes => ?_
  refine .acceptBehind (by decide) (.acceptBehind (by decide) ?_)
  refine .call (edgeIndex_digits hne hdigits) fun index q hindex => ?_
  have hpath : Ahead F ('.' :: q) [] name.toList path (Arrives F [] fun r =>
      ∃ k, r = some k ∧ k.mapMarks (fun _ => ()) = wordPath name) := by
    simpa using path_word (a := []) (b := []) (.inl rfl) hname (.inl rfl) .source
  refine .acceptBehind (by decide) (.call hpath fun r q hr => ?_)
  obtain ⟨k', rfl, hk'⟩ := hr
  refine .done ⟨rfl, ?_⟩
  rw [Key.mapMarks_eq, groupKey, ← hes, ← hindex, ← hk']
  rfl

theorem edgeGroup_chain (hgroup : F.inGroup = false) (hfirst : IsWord first)
    (hhops : ProperHops hops) {digits : List Char} (hne : digits ≠ [])
    (hdigits : ∀ c ∈ digits, c.isDigit = true) {name : String} (hname : IsWord name)
    {range : Span π} :
    Ahead F p []
      (chainText first hops ++ ')' :: '[' :: (digits ++ ']' :: '.' :: name.toList))
      (edgeGroup value (.empty range)) (Arrives F [] fun key => key.mapMarks (fun _ => ()) =
        groupKey first hops (min (Nat.ofDigitChars 10 digits 0) maxWord) name) := by
  refine .setGroup (.call (groupParts_chain rfl hfirst hhops hne hdigits hname) fun r q hr =>
    .setGroup ?_)
  obtain ⟨hgoesOn, hkey⟩ := hr
  rw [F.grouped_grouped hgroup]
  exact .yes hgoesOn (.peekLineEnd (by simp [EndsLine]) (.done hkey))

/-! ## Whole texts -/

/-- Nothing is wrong with a text that is one key. -/
theorem file_key [DecidableEq π] (hgroup : F.inGroup = false) {c : Char} {w : List Char}
    {k : Key Unit} (hvisible : isBlank c = false) (hc : c ∉ [';', '}', '#', '.', '"'])
    (hkey : ∀ p, Ahead F p [] (c :: w) (key value) (Arrives F [] fun r =>
      ∃ k', r = some k' ∧ k'.mapMarks (fun _ => ()) = k)) :
    Ahead F p [] (c :: w) (fileMap value)
      (Arrives F [] fun m => m.entries.map Entry.bare = [.key k]) := by
  simp only [List.mem_cons, List.not_mem_nil, or_false, not_or] at hc
  obtain ⟨hsemicolon, hclosing, hhash, hpoint, hquote⟩ := hc
  refine fileMap_found (R := fun entries => entries.map Entry.bare = [.key k]) hgroup
    (.again (mapStep_found (b := []) (by simp) hvisible ?_ (fun h => absurd h hquote) hkey
      (by simp [EndsLine])) (by simp) fun entries q h => ?_)
  · simp [hsemicolon, hclosing, hhash, hpoint]
  · obtain ⟨k', hk', rfl⟩ := h
    refine .mono (.stop (mapStep_end (by simp))) fun entries h => ?_
    subst h
    simp [Entry.bare, Entry.mapMarks, hk']

/-- A key is known but for its marks if its parts are. -/
theorem key_bare {π : Type} {F : Frame π} {p w u : List Char}
    {value : Grammar π (Option (Value (Span π)))} {k : Key Unit} (hnamed : k.isNamed = true)
    (hparts : ∀ range, Ahead F p [] w (keyParts value (.empty range))
      (Arrives F u fun key => key.mapMarks (fun _ => ()) = k)) :
    Ahead F p [] w (key value)
      (Arrives F u fun r => ∃ k', r = some k' ∧ k'.mapMarks (fun _ => ()) = k) := by
  refine .mono (key_parts (fun key hkey => ?_) fun key hkey => hkey ▸ hparts _) fun r h => ?_
  · rw [← key.isNamed_mapMarks fun _ => (), hkey]
    exact hnamed
  · obtain ⟨key, range, hkey, rfl⟩ := h
    exact ⟨_, rfl, by simpa [Key.mapMarks_eq] using hkey⟩

end Grammar

open Grammar

/-- Nothing is wrong with a text that is read as one key, which is `k` but for its marks. -/
structure Output.IsKey (output : Output) (k : Key Unit) : Prop where
  diagnostics : output.diagnostics = []
  fatal : output.fatal = none
  entries : output.map.entries.map Entry.bare = [.key k]

/-- A text that starts a key and is read as one. -/
theorem parseText_key (label : String) (options : Options) {text : List Char} {k : Key Unit}
    (hstarts : ∃ c w, text = c :: w ∧ isBlank c = false ∧ c ∉ [';', '}', '#', '.', '"'])
    (hnamed : k.isNamed = true)
    (hparts : ∀ p range, Ahead (.ofText options text) p [] text (keyParts value (.empty range))
      (Arrives (.ofText options text) [] fun key => key.mapMarks (fun _ => ()) = k)) :
    (parseText label (String.ofList text) options).IsKey k := by
  obtain ⟨c, w, rfl, hvisible, hc⟩ := hstarts
  have hfile := file_key (p := []) rfl hvisible hc fun p => key_bare hnamed (hparts p)
  obtain ⟨hdiagnostics, hfatal, m, hm, hmap⟩ := parse_ahead label options hfile
  rw [parseText, String.toList_ofList]
  refine ⟨hdiagnostics, hfatal, ?_⟩
  rw [hmap, Map.entries_mapMarks, map_bare_mapMarks, hm]

/-- **Connection chains**: names with proper connections between them are read as one key that has
the edges of the chain and nothing else, and nothing is wrong with the text. In an edge group with
an index and a path behind it, the chain is read as the same edges. -/
theorem parseText_chain (label : String) (options : Options) {first next : String} {hop : Hop}
    {rest : List (Hop × String)} (hfirst : IsWord first) (hhops : ProperHops ((hop, next) :: rest))
    (hhead : hop.sourceHead ≠ .filled) :
    (parseText label (String.ofList (chainText first ((hop, next) :: rest))) options).IsKey
      (chainKey first ((hop, next) :: rest)) ∧
    ∀ (digits : List Char) (name : String), digits ≠ [] → (∀ c ∈ digits, c.isDigit = true) →
      IsWord name →
      (parseText label (String.ofList (groupText first ((hop, next) :: rest) digits name))
        options).IsKey (groupKey first ((hop, next) :: rest)
          (min (Nat.ofDigitChars 10 digits 0) maxWord) name) := by
  refine ⟨?_, fun digits name hdigits hall hname => ?_⟩
  · refine parseText_key label options ?_ rfl fun p range => keyParts_chain hfirst hhops hhead
    obtain ⟨c, w, hw, hc⟩ := hfirst.exists_cons
    have hne : ∀ x, isWordCharacter x = false → c ≠ x := fun _ => ne_of_wordCharacter hc
    refine ⟨c, _, by rw [chainText, hw]; rfl, wordCharacter_visible hc, ?_⟩
    simp [hne ';' rfl, hne '}' rfl, hne '#' rfl, hne '.' rfl, hne '"' rfl]
  · refine parseText_key label options ⟨'(', _, rfl, by decide, by decide⟩ rfl fun p range => ?_
    refine .peek (.no (by decide) (.retreat (.peek (.yes rfl (.accept ?_)))))
    exact edgeGroup_chain rfl hfirst hhops hdigits hall hname

/-- The connections of `a <- b2 *-* _c`. -/
def threeNames : List (Hop × String) :=
  [(⟨.hollow, 1, .none⟩, "b2"), (⟨.filled, 1, .filled⟩, "_c")]

/-- An index that is too large counts as the largest. -/
theorem parseText_chain_index :
    (parseText "" "a <- b2 *-* _c" {}).IsKey (chainKey "a" threeNames) ∧
      (parseText "" "(a <- b2 *-* _c)[18446744073709551616].d" {}).IsKey
        (groupKey "a" threeNames 18446744073709551615 "d") := by
  have hfirst : IsWord "a" := by decide
  have hhops : ProperHops threeNames := by decide
  have hdigits : ∀ c ∈ "18446744073709551616".toList, c.isDigit = true :=
    List.all_eq_true.mp (by decide)
  obtain ⟨halone, hgroup⟩ := parseText_chain "" {} hfirst hhops (by decide)
  exact ⟨halone, hgroup "18446744073709551616".toList "d" (by decide) hdigits (by decide)⟩

end Diagram
