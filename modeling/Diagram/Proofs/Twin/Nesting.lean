import Diagram.Proofs.Ahead.Node
import Diagram.Proofs.Shift
import Diagram.Proofs.Twin.Handover

/-!
A text as a file and the same text as a map in one. A run over the text in plain indexes and a run
over it between braces stay side by side from the brace that opens the map; what is in front of that
brace, and the brace that closes the map, is read by the rules for known text.
-/
namespace Diagram

/-- The line that a map of the key `k` starts with. -/
def openingLine : List Char := ['k', ':', ' ', '{', '\n']

/-- A text as the map of the key `k`. -/
def nestedText (a : List Char) : List Char :=
  openingLine ++ a ++ ['\n', '}']

/-! ## The key -/

namespace Grammar

variable {π : Type} {F : Frame π} {p u : List Char}

/-- The letter goes into an unquoted text in a key. -/
theorem unquotedCharacter_letter {unquoted : Unquoted π} :
    Ahead F p [] ('k' :: u) (unquotedCharacter .key unquoted)
      (Arrives F u fun next => ∃ g, next = .again g ∧ g.text = unquoted.text.push 'k') := by
  have hdollar : (if 'k' = '$' then Role.key.substitution? else pure none) =
      (pure none : Grammar π (Option (Substitution (Span π)))) := if_neg (by decide)
  refine .peek (.inGroup (.no (by simp)
    (.no (by simp [endsUnquoted, Role.isKey]) (.no (by simp) ?_))))
  refine .accept (.here ?_)
  simp only [hdollar, pure_bind]
  exact .no (by decide) (.done ⟨_, rfl, rfl⟩)

/-- An unquoted text in a key ends in front of a colon. -/
theorem unquotedCharacter_colon {unquoted : Unquoted π} :
    Ahead F p [] (':' :: u) (unquotedCharacter .key unquoted)
      (Arrives F (':' :: u) fun next => ∃ g, next = .stop g ∧ g = unquoted) := by
  refine .peek (.inGroup (.no (by simp) (.yes ?_ (.retreat (.done ⟨unquoted, rfl, rfl⟩)))))
  simp [endsUnquoted, Role.isKey]

/-- The path that is the letter. -/
def IsLetter (k : KeyPath (Span π)) : Prop :=
  ∃ range nameRange, k = ⟨range, [.unquoted nameRange [.literal "k" "k"]]⟩

theorem text_letter :
    Ahead F p [] ('k' :: ':' :: u) (text .key)
      (Arrives F (':' :: u) fun r => ∃ t, r = some t ∧
        ∃ range, t = .unquoted range [.literal "k" "k"]) := by
  refine .peekOnLine (b := []) (by simp) (by decide) (.accept ?_)
  refine .no (by decide) (.no (by decide) (.no (by decide) (.putBack (by decide) (.here ?_))))
  have hletters : ∀ start : π, Ahead F p [] ('k' :: ':' :: u)
      (repeating (unquotedCharacter .key) ⟨.empty, start⟩)
      (Arrives F (':' :: u) fun g => g.text = Gathered.empty.push 'k') := by
    intro start
    refine .again unquotedCharacter_letter (by simp) fun g q hg => ?_
    apply Ahead.mono (.stop unquotedCharacter_colon)
    intro g' h
    rw [h, hg]
  refine .call (hletters _) fun g q hg => ?_
  rw [hg]
  exact .done ⟨_, rfl, _, rfl⟩

theorem path_letter :
    Ahead F p [] ('k' :: ':' :: u) path
      (Arrives F (':' :: u) fun r => ∃ k, r = some k ∧ IsLetter k) := by
  have hsegment : Ahead F p [] ('k' :: ':' :: u) (pathSegment [])
      (Arrives F (':' :: u) fun next => ∃ s, next = .stop s ∧
        ∃ range, s = [.unquoted range [.literal "k" "k"]]) := by
    refine .peekOnLine (b := []) (by simp) (by decide) (.retreat (.no (by decide) ?_))
    refine .call text_letter fun r q hr => ?_
    obtain ⟨t, rfl, range, rfl⟩ := hr
    have hcolon : FollowsPath (':' :: u) := .inr ⟨':', u, rfl, by decide, by decide⟩
    apply Ahead.mono (pathPoint_follows hcolon)
    intro next h
    obtain ⟨s, hnext, hs⟩ := h
    exact ⟨s, hnext, range, hs⟩
  refine .here (.call (.stop hsegment) fun s q hs => ?_)
  obtain ⟨range, rfl⟩ := hs
  exact .no (by simp) (.here (.done ⟨_, rfl, _, range, rfl⟩))

end Grammar

/-! ## The text inside -/

section

variable (counting : Counting) (a : List Char) (limit : Nat)

/-- The frame of the run over the text as a map, in that map. -/
def Frame.nestedIn : Frame Position :=
  .ofSource counting.meter counting.meter_lawful (deliveries (nestedText a)) (limit + 1)

/-- A run in plain indexes over the text `a`, and a run over it inside a map. -/
def Pairing.inside (hbar : '|' ∉ a) : Pairing Position where
  first := .ofSource .index Meter.index_lawful (deliveries a) limit
  second := (Frame.nestedIn counting a limit).deeper
  base := openingLine.reverse
  tail := ['\n', '}']
  shift := 1
  voids _ := True
  extra := []
  meter := Frame.ofFile_meter a limit
  text := by simp [Frame.nestedIn, Frame.deeper, Frame.ofSource, delivered_deliveries, nestedText]
  newline := newline_head? ['}']
  voids_of_tail _ _ := trivial
  blocks := .inr (by simpa [Frame.ofSource, delivered_deliveries] using hbar)
  depth := rfl
  inGroup := rfl

variable {counting a limit} {hbar : '|' ∉ a}

/-- The place of an index is its position in the text, shifted by the line in front. -/
theorem Pairing.inside_place (i : Nat) :
    (Pairing.inside counting a limit hbar).place i =
      (Position.after counting (a.take i)).shift counting openingLine := by
  have htake : (nestedText a).take (openingLine.length + min i a.length) =
      ['k', ':', ' ', '{'] ++ '\n' :: a.take i := by
    rw [nestedText, List.append_assoc, List.take_length_add_append,
      List.take_append_of_le_length (Nat.min_le_right _ _), ← List.take_eq_take_min]
    rfl
  show counting.meter.after ((delivered (deliveries (nestedText a))).take
    (openingLine.reverse.length + min i (delivered (deliveries a)).length)) = _
  rw [delivered_deliveries, delivered_deliveries, List.length_reverse, htake]
  exact Position.after_append_line counting ['k', ':', ' ', '{'] (a.take i)

theorem inside_range (label : String) (span : Span Nat) :
    (span.map (Pairing.inside counting a limit hbar).place).toRange label =
      (Span.between label counting a span).shift counting openingLine := by
  simp only [Span.map, Span.toRange, Pairing.inside_place, Span.between, rangeBetween, Range.shift]

/-- Behind the opening line, both runs are at the start of the text. -/
theorem Twin.inside {t : State Position}
    (ht : t.At (Frame.nestedIn counting a limit).deeper openingLine.reverse [])
    (hclean : t.problems = []) :
    Twin (.inside counting a limit hbar) [] [] (.ofSource .index (deliveries a) limit) t := by
  refine ⟨State.ofSource_at Meter.index_lawful _ limit, ht, hclean, by simp [State.ofSource],
    fun _ => rfl, fun ⟨_, h⟩ => absurd trivial h, fun _ => ?_⟩
  -- no more can have been asked for than there is, and all of that is within the bound
  have hcount := ht.reader.count_le
  have hlength := congrArg List.length (Pairing.inside counting a limit hbar).text
  have hbound := (Pairing.inside counting a limit hbar).bound_of_append (b := ['\n']) (c := '}')
    (u := []) rfl (List.forall_mem_singleton.mpr (by decide))
  simp [Pairing.inside] at hcount hlength hbound ⊢
  omega

open Grammar

theorem value_inside :
    ValueTwins (.plain (Pairing.inside counting a limit hbar).place) (.inside counting a limit hbar)
      value (valueWithin (limit + 1)) := by
  apply ValueTwins.outermost _ rfl
  apply valueWithin_twins (K := .inside counting a limit hbar) limit limit rfl
    ⟨Nat.le_refl _, .inl rfl⟩
  · exact Nat.le_add_left limit 0
  · show limit + 1 ≤ 0 + 1 + limit
    omega

/-- The new line behind the opening brace is passed over with the blanks in front of the first
entry. -/
theorem entries_start {t : State Position} (start : Position)
    (ht : t.Stands (Frame.nestedIn counting a limit).deeper ['{', ' ', ':', 'k'] []
      ('\n' :: (a ++ ['\n', '}']))) :
    ∃ t₁ n, t₁.At (Frame.nestedIn counting a limit).deeper openingLine.reverse [] ∧
      t₁.problems = [] ∧
      (Frame.nestedIn counting a limit).budget < n + openingLine.length ∧
      repeating (mapStep (valueWithin (limit + 1)) (some start)) [] t =
        repeatWithin (mapStep (valueWithin (limit + 1)) (some start)) n [] t₁ := by
  obtain ⟨r, hread, hr, -⟩ := ht.stands.reader.read_cons ht.unread
  have hat := ht.stands.setReader hr
  have hleft : t.reader.left + 4 = (Frame.nestedIn counting a limit).budget := ht.stands.reader.left
  have hleft' : r.left + 5 = (Frame.nestedIn counting a limit).budget := hr.left
  have hstep := mapStep_skip (valueWithin (limit + 1)) (some start) []
    (ht.stands.reader.readVisible_blank (by decide) hread hr)
  refine ⟨{ t with reader := r }, t.reader.left + 1, hat, ht.problems, ?_, ?_⟩
  · rw [← hleft]
    show _ < t.reader.left + 1 + 5
    omega
  · apply repeatWithin_skip hstep
    · show r.left ≤ t.reader.left
      omega
    · -- there is fuel for what is left, since every step that is repeated moves on
      intro entries hagain
      have hreads := valueWithin_reads (F := (Frame.nestedIn counting a limit).deeper) limit rfl
        (Nat.le_of_eq (Nat.add_comm limit 1))
      have hwithin : EntriesWithin (Frame.nestedIn counting a limit).deeper 0 []
          openingLine.reverse.length := Nat.zero_le _
      have hafter := mapStep_reads rfl hreads (some start) hwithin _ hat
      rw [hagain] at hafter
      obtain ⟨q, hq, hat', -⟩ := hafter
      exact hat.left_lt hat' hq

/-- Where nothing visible is left of the text, the brace behind it ends the map. -/
theorem entries_end {q : List Char} {s : State Nat} {t : State Position} {n : Nat}
    (start : Position) (entries : List (Entry (Span Position)))
    (h : Twin (.inside counting a limit hbar) q [] s t)
    (hclean : s.problems = []) (hblank : ∀ x ∈ a.drop q.length, isBlank x = true)
    (hn : (Frame.nestedIn counting a limit).budget < n + (q ++ openingLine.reverse).length) :
    Arrives (Frame.nestedIn counting a limit).deeper [] (fun entries' => entries' = entries)
      (repeatWithin (mapStep (valueWithin (limit + 1)) (some start)) n entries t).1
      (repeatWithin (mapStep (valueWithin (limit + 1)) (some start)) n entries t).2 := by
  have hleft : t.reader.left + (q ++ openingLine.reverse).length =
    (Frame.nestedIn counting a limit).budget := h.second.reader.left
  have hunread : t.reader.unread = (a.drop q.length ++ ['\n']) ++ '}' :: [] := by
    have hfirst := h.first.reader.unread_eq
    have htext : (Pairing.inside counting a limit hbar).first.text = a := delivered_deliveries a
    rw [htext, List.length_nil, Nat.add_zero] at hfirst
    rw [h.unread_eq, hfirst]
    simp [Pairing.inside]
  have hproblems : t.problems = [] := by
    rw [h.problems, hclean]
    rfl
  have hblanks : ∀ x ∈ a.drop q.length ++ ['\n'], isBlank x = true := by
    intro x hx
    rcases List.mem_append.mp hx with hx | hx
    · exact hblank x hx
    · obtain rfl := List.mem_singleton.mp hx
      rfl
  have hstep : Ahead (Frame.nestedIn counting a limit).deeper (q ++ openingLine.reverse) []
      ((a.drop q.length ++ ['\n']) ++ '}' :: [])
      (mapStep (valueWithin (limit + 1)) (some start) entries)
      (Arrives (Frame.nestedIn counting a limit).deeper [] fun next =>
        ∃ entries', next = .stop entries' ∧ entries' = entries) := mapStep_closing hblanks
  have hclosing := Ahead.stop hstep t ⟨h.second, hunread, hproblems⟩
  -- the steps that are left are enough, so their number does not matter
  rw [repeatWithin_eq (n := t.reader.left + 1) (by omega) (Nat.lt_succ_self _)]
  exact hclosing

/-- The entries of the text, latest first, with their places in the text as a map. -/
def insideEntries (counting : Counting) (a : List Char) (limit : Nat) (hbar : '|' ∉ a) :
    List (Entry (Span Position)) :=
  mapEntries (.inside counting a limit hbar) [] (fileEntries .index (deliveries a) limit).1

/-- **The entries inside**: behind the opening brace, the entries of the text are read, and then the
brace that closes the map. -/
theorem entries_inside (hbar : '|' ∉ a)
    (hclean : (fileEntries .index (deliveries a) limit).2.problems = []) (start : Position) :
    Ahead (Frame.nestedIn counting a limit).deeper ['{', ' ', ':', 'k'] []
      ('\n' :: (a ++ ['\n', '}'])) (repeating (mapStep (valueWithin (limit + 1)) (some start)) [])
      (Arrives (Frame.nestedIn counting a limit).deeper [] fun entries =>
        entries = insideEntries counting a limit hbar) := by
  intro t ht
  obtain ⟨t₁, n, hat, hproblems, hn, hstart⟩ := entries_start start ht
  have hboth := file_handsOver (K := .inside counting a limit hbar) rfl value_inside
    (List.cons_ne_nil _ _) (some start)
    ((State.ofSource .index (deliveries a) limit).reader.left + 1) n [] []
    (Nat.le_refl 0) (Nat.lt_succ_self _) hn _ _ (.inside hat hproblems)
  rw [hstart]
  rcases hboth with (⟨x, hx, -⟩ | ⟨-, -, hhash⟩) | ⟨q, s₀, t₀, m, htwin, hclean₀, hblank, hm, hrest⟩
  · have hnone : x ∈ (fileEntries .index (deliveries a) limit).2.problems := hx
    rw [hclean] at hnone
    cases hnone
  · -- what is visible behind the new line is a brace, so that no comment goes on
    cases hhash
  · have htext : (Pairing.inside counting a limit hbar).first.text = a := delivered_deliveries a
    rw [htext] at hblank
    have hend := entries_end start (insideEntries counting a limit hbar) htwin
      (hclean₀.trans hclean) hblank hm
    have hsame : repeatWithin (mapStep (valueWithin (limit + 1)) (some start)) m
        (insideEntries counting a limit hbar) t₀ =
      repeatWithin (mapStep (valueWithin (limit + 1)) (some start)) n [] t₁ := hrest
    rwa [hsame] at hend

/-! ## The whole file -/

/-- The map inside holds the entries of the text. -/
def HoldsInside (counting : Counting) (a : List Char) (limit : Nat) (hbar : '|' ∉ a)
    (m : Map (Span Position)) : Prop :=
  m.entries = (insideEntries counting a limit hbar).reverse

theorem map_inside (hbar : '|' ∉ a)
    (hclean : (fileEntries .index (deliveries a) limit).2.problems = []) (p : List Char) :
    Ahead (Frame.nestedIn counting a limit) ('{' :: p) [] ('\n' :: (a ++ ['\n', '}']))
      (map (valueWithin (limit + 1)))
      (Arrives (Frame.nestedIn counting a limit) [] (HoldsInside counting a limit hbar)) := by
  -- where the brace stands is known from what is ahead of it
  refine .known fun hknown => ?_
  obtain rfl : p = [' ', ':', 'k'] := by
    have htext : (Frame.nestedIn counting a limit).text = nestedText a := delivered_deliveries _
    have hfront : (p.reverse ++ ['{']) ++ '\n' :: (a ++ ['\n', '}']) =
        ['k', ':', ' ', '{'] ++ '\n' :: (a ++ ['\n', '}']) := by
      rw [htext] at hknown
      simpa [nestedText, openingLine] using hknown
    simpa using congrArg List.reverse (List.append_cancel_right hfront)
  apply map_found (R := fun entries => entries = (insideEntries counting a limit hbar).reverse) rfl
    (Nat.succ_pos limit)
  intro start
  apply Ahead.mono (entries_inside hbar hclean start)
  intro entries hentries
  rw [hentries]

/-- The key is `k`, and the map that is its value holds the entries of the text. -/
def IsNested (counting : Counting) (a : List Char) (limit : Nat) (hbar : '|' ∉ a)
    (k : Key (Span Position)) : Prop :=
  ∃ range path inner, IsLetter path ∧ HoldsInside counting a limit hbar inner ∧
    k = .plain range path (some (.map inner))

theorem key_nested (hbar : '|' ∉ a)
    (hclean : (fileEntries .index (deliveries a) limit).2.problems = []) (p : List Char) :
    Ahead (Frame.nestedIn counting a limit) p [] (nestedText a) (key value)
      (Arrives (Frame.nestedIn counting a limit) [] fun r =>
        ∃ k, r = some k ∧ IsNested counting a limit hbar k) := by
  have hvalue : ∀ q, Ahead (Frame.nestedIn counting a limit) q []
      (' ' :: '{' :: '\n' :: (a ++ ['\n', '}'])) value
      (Arrives (Frame.nestedIn counting a limit) [] fun r => ∃ v, r = some v ∧
        ∃ inner, HoldsInside counting a limit hbar inner ∧ v = .map inner) := by
    intro q
    have hblank : LineBlanks [' '] := List.forall_mem_singleton.mpr (by decide)
    refine .limit (.mono (valueWithin_brace rfl hblank (map_inside hbar hclean)) ?_)
    rintro r ⟨inner, rfl, hinner⟩
    exact ⟨_, rfl, inner, hinner, rfl⟩
  have hbehind : ∀ range k q, IsLetter k → Ahead (Frame.nestedIn counting a limit) q []
      (':' :: ' ' :: '{' :: '\n' :: (a ++ ['\n', '}'])) (keyBehindPath value (.plain range k none))
      (Arrives (Frame.nestedIn counting a limit) [] fun key => ∃ x,
        (∃ inner, HoldsInside counting a limit hbar inner ∧ x = some (.map inner)) ∧
        key = .plain range k x) := by
    intro range k q _
    apply Ahead.mono (keyBehindPath_colon hvalue (by simp [EndsLine]))
    intro key h
    obtain ⟨v, ⟨inner, hinner, rfl⟩, rfl⟩ := h
    exact ⟨_, ⟨inner, hinner, rfl⟩, rfl⟩
  apply Ahead.mono (key_found (by decide) (fun q => path_letter) hbehind)
  intro r h
  obtain ⟨range, k, x, hk, ⟨inner, hinner, rfl⟩, rfl⟩ := h
  exact ⟨_, rfl, range, k, inner, hk, hinner, rfl⟩

variable (counting) in
/-- **The file around**: the text as a map is read as one key. -/
theorem fileMap_nested (hbar : '|' ∉ a)
    (hclean : (fileEntries .index (deliveries a) limit).2.problems = []) :
    Ahead (Frame.nestedIn counting a limit) [] [] (nestedText a) (fileMap value)
      (Arrives (Frame.nestedIn counting a limit) [] fun m =>
        ∃ k, IsNested counting a limit hbar k ∧ m.entries = [.key k]) := by
  refine fileMap_found (R := fun entries => ∃ k, IsNested counting a limit hbar k ∧
    entries = [.key k]) rfl ?_
  have hstep : Ahead (Frame.nestedIn counting a limit) [] [] (nestedText a) (mapStep value none [])
      (Arrives (Frame.nestedIn counting a limit) [] fun next => ∃ entries, next = .again entries ∧
        ∃ k, IsNested counting a limit hbar k ∧ entries = [.key k]) :=
    mapStep_found (b := []) (by simp) (by decide) (by decide) (fun h => absurd h (by decide))
      (key_nested hbar hclean) (by simp [EndsLine])
  refine .again hstep (by simp [nestedText, openingLine]) fun entries q h => ?_
  obtain ⟨k, hk, rfl⟩ := h
  apply Ahead.mono (.stop (mapStep_end (by simp)))
  intro entries h
  rw [h]
  exact ⟨k, hk, rfl⟩

end

/-- The entries inside are those of the text, shifted by the line in front. -/
theorem parse_entries_inside (label : String) (options : Options) {a : List Char} (hbar : '|' ∉ a) :
    (insideEntries options.counting a options.maxDepth hbar).reverse.map
        (Entry.mapMarks (Span.toRange label)) =
      (parse label (deliveries a) options).map.entries.map
        (Entry.mapMarks (Range.shift options.counting openingLine)) := by
  rw [parse_entries_eq]
  simp only [insideEntries, Grammar.mapEntries, List.append_nil, ← List.map_reverse, List.map_map,
    Function.comp_def, Entry.mapMarks_mapMarks, inside_range, delivered_deliveries]

/-- **Nesting**: if nothing is wrong with a text without block delimiters, nothing is wrong with the
same text as the map of a key, where one more level is allowed, and the entries of that map are
those of the text, shifted by the line in front. -/
theorem parseText_nested (label : String) (options : Options) (a : String) (hbar : '|' ∉ a.toList)
    (hclean : (parseText label a options).diagnostics = []) :
    let inner := parseText label a options
    let outer := parseText label ("k: \x7b\n" ++ a ++ "\n\x7d")
      { options with maxDepth := options.maxDepth + 1 }
    outer.diagnostics = [] ∧ outer.fatal = none ∧
    ∃ keyRange pathRange nameRange mapRange, outer.map.entries =
      [.key (.plain keyRange ⟨pathRange, [.unquoted nameRange [.literal "k" "k"]]⟩
        (some (.map ⟨mapRange, inner.map.entries.map
          (Entry.mapMarks (Range.shift options.counting "k: \x7b\n".toList))⟩)))] := by
  have htext : ("k: \x7b\n" ++ a ++ "\n\x7d").toList = nestedText a.toList := by
    simp [nestedText, openingLine]
  have hread := fileMap_nested options.counting hbar (problems_of_clean hclean)
  simp only [parseText, htext]
  obtain ⟨hdiagnostics, hfatal, m, ⟨k, hk, hentries⟩, hmap⟩ :=
    parse_ahead label { options with maxDepth := options.maxDepth + 1 } hread
  refine ⟨hdiagnostics, hfatal, ?_⟩
  obtain ⟨range, path, inner, ⟨pathRange, nameRange, rfl⟩, hinner, rfl⟩ := hk
  obtain ⟨mapRange, entries⟩ := inner
  have hinside := parse_entries_inside label options hbar
  rw [← hinner] at hinside
  rw [hmap, Map.entries_mapMarks, hentries, List.map_singleton, Entry.mapMarks, Key.mapMarks_plain,
    Value.mapMarks?, Value.mapMarks, Map.mapMarks, Entry.mapMarksAll_eq, hinside]
  exact ⟨_, _, _, _, rfl⟩

/-- A map in the text, at the limit, and a comment on its last line. -/
theorem parseText_nested_comment :
    let inner := parseText "" "a: \x7bb\x7d\n# c" { maxDepth := 1 }
    let outer := parseText "" ("k: \x7b\n" ++ "a: \x7bb\x7d\n# c" ++ "\n\x7d") { maxDepth := 2 }
    inner.diagnostics = [] ∧ inner.map.entries.length = 2 ∧ outer.diagnostics = [] ∧
      outer.map.entries.length = 1 := by
  have hbar : '|' ∉ "a: \x7bb\x7d\n# c".toList := by decide
  have hclean : (parseText "" "a: \x7bb\x7d\n# c" { maxDepth := 1 }).diagnostics = [] := by
    decide +kernel
  obtain ⟨hdiagnostics, -, _, _, _, _, hentries⟩ :=
    parseText_nested "" { maxDepth := 1 } "a: \x7bb\x7d\n# c" hbar hclean
  refine ⟨hclean, ?_, hdiagnostics, ?_⟩
  · decide +kernel
  · exact congrArg List.length hentries

end Diagram
