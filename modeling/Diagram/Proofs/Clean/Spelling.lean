import Diagram.Proofs.Block.Closing
import Diagram.Proofs.Clean.Unquoted
import Diagram.Proofs.Gap

/-!
How the parts of a key are spelled where nothing is wrong. A path consists of texts with points
between them, and each text is written without quotes, between quotes or as a block. What is read
for one of these parts has its form, or a problem is noticed.
-/
namespace Diagram

open Grammar (endsBlockQuote endsUnquoted startsEdge FirstAt)

/-! ## Texts -/

/-- Unquoted text of a key: characters that stand for themselves, none of which starts a connection,
and escapes. -/
inductive BareText : List Char → Prop
  | nil : BareText []
  | plain {c : Char} {cs : List Char} (hc : endsUnquoted (.key : Grammar.Role Unit) c = false)
    (hescape : c ≠ '\\') (hedge : c = '-' ∨ c = '*' → ∀ x ∈ cs.head?, startsEdge c x = false)
    (h : BareText cs) : BareText (c :: cs)
  | escape (c : Char) {cs : List Char} (h : BareText cs) : BareText ('\\' :: c :: cs)

/-- What stands between double quotes: one line, and escapes, one of which may stand for a quote or
continue the line. -/
inductive InDoubleQuotes : List Char → Prop
  | nil : InDoubleQuotes []
  | plain {c : Char} {cs : List Char} (hc : c ∉ ['"', '\n', '\\']) (h : InDoubleQuotes cs) :
    InDoubleQuotes (c :: cs)
  | escape (c : Char) {cs : List Char} (h : InDoubleQuotes cs) : InDoubleQuotes ('\\' :: c :: cs)

/-- What stands between single quotes: one line, in which a quote is doubled and a backslash may
continue the line. -/
inductive InSingleQuotes : List Char → Prop
  | nil : InSingleQuotes []
  | plain {c : Char} {cs : List Char} (hc : c ∉ ['\'', '\n']) (h : InSingleQuotes cs) :
    InSingleQuotes (c :: cs)
  | quote {cs : List Char} (h : InSingleQuotes cs) : InSingleQuotes ('\'' :: '\'' :: cs)
  | line {cs : List Char} (h : InSingleQuotes cs) : InSingleQuotes ('\\' :: '\n' :: cs)

/-- A text of a key in one of its forms. -/
inductive IsText : List Char → Prop
  | bare {cs : List Char} (h : BareText cs) (hfirst : ∀ c ∈ cs.head?, c ∉ ['"', '\'', '|']) :
    IsText cs
  | doubleQuoted {cs : List Char} (h : InDoubleQuotes cs) : IsText ('"' :: (cs ++ ['"']))
  | singleQuoted {cs : List Char} (h : InSingleQuotes cs) : IsText ('\'' :: (cs ++ ['\'']))
  /-- A block, with the delimiter that closes it behind its content and nowhere before. -/
  | block {quote tag blanks content : List Char} (hquote : ∀ c ∈ quote, endsBlockQuote c = false)
    (htag : ∀ c ∈ tag, isBlank c = false) (hblanks : ∀ c ∈ blanks, isBlank c = true)
    (hfirst : FirstAt (quote ++ ['|']) (content ++ (quote ++ ['|'])) content []) :
    IsText ('|' :: (quote ++ (tag ++ (blanks ++ (content ++ (quote ++ ['|']))))))

/-- The visible characters that the unquoted text of a key ends in front of. -/
def keyEnds : List Char := [';', '#', '{', '}', '[', ']', ':', '.', '<', '>']

theorem endsUnquoted_of_lineBlank {c : Char} (hblank : isBlank c = true) (hline : c ≠ '\n') :
    endsUnquoted (.key : Grammar.Role Unit) c = false := by
  have hvisible : keyEnds.all (!isBlank ·) = true := by decide
  have hne : ∀ x ∈ keyEnds, c ≠ x := by
    intro x hx
    exact ne_of_blank hblank (by simpa using List.all_eq_true.mp hvisible x hx)
  simp only [keyEnds, List.forall_mem_cons] at hne
  simp [endsUnquoted, Grammar.Role.isKey, hline, hne]

/-- Blanks of a line stand for themselves. -/
theorem BareText.behindBlanks {b cs : List Char} (hb : LineBlanks b) (h : BareText cs) :
    BareText (b ++ cs) := by
  induction b with
  | nil => exact h
  | cons x b ih =>
    obtain ⟨⟨hblank, hline⟩, hb⟩ := List.forall_mem_cons.mp hb
    have hescape : x ≠ '\\' := ne_of_blank hblank (by decide)
    have hdash : x ≠ '-' := ne_of_blank hblank (by decide)
    have hstar : x ≠ '*' := ne_of_blank hblank (by decide)
    refine .plain (endsUnquoted_of_lineBlank hblank hline) hescape (fun hedge => ?_) (ih hb)
    exact absurd hedge (not_or.mpr ⟨hdash, hstar⟩)

theorem InDoubleQuotes.append {cs ds : List Char} (h : InDoubleQuotes cs) (h' : InDoubleQuotes ds) :
    InDoubleQuotes (cs ++ ds) := by
  induction h with
  | nil => exact h'
  | plain hc _ ih => exact .plain hc ih
  | escape c _ ih => exact .escape c ih

theorem InSingleQuotes.append {cs ds : List Char} (h : InSingleQuotes cs) (h' : InSingleQuotes ds) :
    InSingleQuotes (cs ++ ds) := by
  induction h with
  | nil => exact h'
  | plain hc _ ih => exact .plain hc ih
  | quote _ ih => exact .quote ih
  | line _ ih => exact .line ih

/-! ## Paths and indexes -/

/-- A text with blanks of its line around it. -/
def Segment (cs : List Char) : Prop :=
  ∃ front text back, cs = front ++ (text ++ back) ∧ LineBlanks front ∧ IsText text ∧ LineBlanks back

/-- A path: segments with points between them. -/
inductive PathText : List Char → Prop
  | last {cs : List Char} (h : Segment cs) : PathText cs
  | more {cs ds : List Char} (h : Segment cs) (h' : PathText ds) : PathText (cs ++ '.' :: ds)

theorem PathText.nil : PathText [] :=
  .last ⟨[], [], [], rfl, .nil, .bare .nil (by simp), .nil⟩

/-- The number or the star of an edge index. -/
inductive IndexText : List Char → Prop
  | number {cs : List Char} (h : ∀ c ∈ cs, c.isDigit = true ∨ isBlank c = true ∧ c ≠ '\n') :
    IndexText cs
  | all {front back : List Char} (hfront : LineBlanks front) (hback : LineBlanks back) :
    IndexText (front ++ '*' :: back)

theorem IndexText.behind {cs b : List Char} (h : IndexText cs) (hb : LineBlanks b) :
    IndexText (cs ++ b) := by
  cases h with
  | number h =>
    exact .number fun c hc => (List.mem_append.mp hc).elim (h c) fun hc => .inr (hb c hc)
  | @all front back hfront hback =>
    rw [List.append_assoc, List.cons_append]
    exact .all hfront fun x hx => (List.mem_append.mp hx).elim (hback x) (hb x)

namespace Grammar

variable {π : Type} {F : Frame π} {p : List Char}

/-! ## Unquoted text -/

/-- In a key, what has been read of an unquoted text is the start of one, and blanks alone are
written as a gap. -/
def SpellsBare (F : Frame π) (p : List Char) (g : Gathered π) (u : List Char) : Prop :=
  (∀ cs, BareText cs → (∀ x ∈ cs.head?, F.text[(u ++ p).length]? = some x) →
    BareText (u.reverse ++ cs)) ∧ (g.Blank → Gap u.reverse)

theorem unquotedKeeps_bare : UnquotedKeeps F p .key (fun _ => False) (SpellsBare F p) where
  reads := Role.key_reads
  substitution _ := .consumed [] rfl ⟨fun _ => rfl, fun h => by cases h⟩
  empty := ⟨fun _ h _ => h, fun _ => .nil⟩
  push g u c hc hescape hu := by
    rw [SpellsBare, List.reverse_cons]
    refine ⟨fun cs hcs hnext => ?_, fun ⟨hpieces, hvalue⟩ => ?_⟩
    · rw [List.append_assoc]
      refine hu.1 (c :: cs) (.plain hc.inside hescape (fun hedge x hx => ?_) hcs) fun x hx => ?_
      · exact hc.edge rfl hedge x (hnext x hx)
      · obtain rfl := Option.some.inj hx
        exact hc.here
    · obtain ⟨hblank, hvalue⟩ := List.forall_mem_cons.mp hvalue
      exact (hu.2 ⟨hpieces, hvalue⟩).append (.blank hblank .nil)
  escape g u c hslash hu := by
    rw [SpellsBare, List.reverse_cons, List.reverse_cons, List.append_assoc]
    refine ⟨fun cs hcs _ => ?_, fun ⟨hpieces, hvalue⟩ => ?_⟩
    · rw [List.append_assoc]
      refine hu.1 ('\\' :: c :: cs) (.escape c hcs) fun x hx => ?_
      obtain rfl := Option.some.inj hx
      exact hslash
    · obtain ⟨hblank, hvalue⟩ := List.forall_mem_cons.mp hvalue
      exact (hu.2 ⟨hpieces, hvalue⟩).append (.escape hblank .nil)
  continuation g u b hslash hb hu := by
    have hreverse :
        (b ++ '\n' :: '\\' :: u).reverse = u.reverse ++ '\\' :: '\n' :: b.reverse := by simp
    rw [SpellsBare, hreverse]
    refine ⟨fun cs hcs _ => ?_, fun hblank => ?_⟩
    · rw [List.append_assoc]
      refine hu.1 ('\\' :: '\n' :: (b.reverse ++ cs)) (.escape '\n' (hcs.behindBlanks hb.reverse))
        fun x hx => ?_
      obtain rfl := Option.some.inj hx
      exact hslash
    · exact (hu.2 hblank).append (.escape (c := '\n') (by decide) (.blanks hb.reverse.blank))
  substituted _ _ _ _ hw := hw.elim

/-! ## Quoted text -/

/-- Inside of double quotes, with the quote that ends them. -/
def DoubleQuotesEnd (u : List Char) : Prop :=
  ∃ cs, u.reverse = cs ++ ['"'] ∧ InDoubleQuotes cs

theorem doubleQuotedEscape_consumes (start : π) {g : Gathered π} {u : List Char}
    (hu : InDoubleQuotes u.reverse) :
    Ensures (State.At F ('\\' :: (u ++ p)) []) (doubleQuotedEscape start g)
      (Consumes F p
        (Next.Fits (fun _ u => InDoubleQuotes u.reverse) fun _ => DoubleQuotesEnd)) := by
  refine .read (.placeOf (by decide) .unclean_toReach) fun c => .consumed (c :: '\\' :: u) rfl ?_
  have hescape : InDoubleQuotes (c :: '\\' :: u).reverse := by
    simpa using hu.append (.escape c .nil)
  split <;> exact hescape

theorem doubleQuotedCharacter_consumes (start : π) {g : Gathered π} {u : List Char}
    (hu : InDoubleQuotes u.reverse) :
    Ensures (State.At F (u ++ p) []) (doubleQuotedCharacter .key start g)
      (Consumes F p
        (Next.Fits (fun _ u => InDoubleQuotes u.reverse) fun _ => DoubleQuotesEnd)) := by
  refine .peek .unclean_toReach fun c => .ite (fun _ => .retreat .unclean_toHere) fun hline =>
    .accept ?_
  rw [doubleQuotedBehind, Role.substitution?, ite_self, pure_bind]
  refine .ite (fun hquote => ?_) fun hquote => .ite (fun hescape => ?_) fun hescape => ?_
  · exact .consumed (c :: u) rfl ⟨u.reverse, by rw [hquote, List.reverse_cons], hu⟩
  · subst hescape
    exact doubleQuotedEscape_consumes start hu
  · have hplain : InDoubleQuotes (c :: u).reverse := by
      rw [List.reverse_cons]
      exact hu.append (.plain (by simp [hquote, hline, hescape]) .nil)
    exact .consumed (c :: u) rfl hplain

/-- A double quoted text is read up to the quote that ends it. -/
theorem doubleQuotedText_consumes (p : List Char) :
    Ensures (State.At F ('"' :: p) []) (doubleQuotedText .key)
      (Consumes F ('"' :: p) fun _ u => IsText ('"' :: u.reverse)) := by
  have hempty : Gathered.empty.Within F.cover p.length ('"' :: p).length := Nat.le_succ p.length
  refine .placeOf (by decide)
    (.callClean (repeating_consumes (M := Gathered.Within F.cover p.length)
      (fun _ _ h => doubleQuotedCharacter_reads Role.key_reads h)
      (fun _ _ h => doubleQuotedCharacter_consumes _ h) hempty .nil)
      fun _ u ⟨cs, hu, hcs⟩ => .here ?_)
  exact .consumed u rfl (by rw [hu]; exact .doubleQuoted hcs)

/-- Inside of single quotes, with the quote that ends them. -/
def SingleQuotesEnd (u : List Char) : Prop :=
  ∃ cs, u.reverse = cs ++ ['\''] ∧ InSingleQuotes cs

theorem singleQuote_consumes {g u : List Char} (hu : InSingleQuotes u.reverse) :
    Ensures (State.At F ('\'' :: (u ++ p)) []) (singleQuote g : Grammar π (Next (List Char)))
      (Consumes F p
        (Next.Fits (fun _ u => InSingleQuotes u.reverse) fun _ => SingleQuotesEnd)) := by
  have hend : SingleQuotesEnd ('\'' :: u) := ⟨u.reverse, List.reverse_cons, hu⟩
  refine .peek (.consumed ('\'' :: u) rfl hend) fun c => .ite (fun hc => .accept ?_) fun _ =>
    .retreat ?_
  · have hdoubled : InSingleQuotes ('\'' :: '\'' :: u).reverse := by
      simpa using hu.append (.quote .nil)
    exact .consumed ('\'' :: '\'' :: u) (by simp [hc]) hdoubled
  · exact .consumed ('\'' :: u) rfl hend

theorem singleQuotedBackslash_consumes {g u : List Char} (hu : InSingleQuotes u.reverse) :
    Ensures (State.At F ('\\' :: (u ++ p)) [])
      (singleQuotedBackslash g : Grammar π (Next (List Char)))
      (Consumes F p
        (Next.Fits (fun _ u => InSingleQuotes u.reverse) fun _ => SingleQuotesEnd)) := by
  have hplain : InSingleQuotes ('\\' :: u).reverse := by
    simpa using hu.append (.plain (c := '\\') (by decide) .nil)
  refine .peek (.consumed ('\\' :: u) rfl hplain) fun c =>
    .ite (fun hc => .accept ?_) fun _ => .retreat ?_
  · have hline : InSingleQuotes ('\n' :: '\\' :: u).reverse := by
      simpa using hu.append (.line .nil)
    exact .consumed ('\n' :: '\\' :: u) (by simp [hc]) hline
  · exact .consumed ('\\' :: u) rfl hplain

theorem singleQuotedCharacter_consumes (start : π) {g u : List Char}
    (hu : InSingleQuotes u.reverse) :
    Ensures (State.At F (u ++ p) []) (singleQuotedCharacter start g)
      (Consumes F p
        (Next.Fits (fun _ u => InSingleQuotes u.reverse) fun _ => SingleQuotesEnd)) := by
  refine .peek .unclean_toReach fun c => .ite (fun _ => .retreat .unclean_toHere) fun hline =>
    .accept (.ite (fun hquote => ?_) fun hquote => .ite (fun hslash => ?_) fun _ => ?_)
  · subst hquote
    exact singleQuote_consumes hu
  · subst hslash
    exact singleQuotedBackslash_consumes hu
  · have hplain : InSingleQuotes (c :: u).reverse := by
      rw [List.reverse_cons]
      exact hu.append (.plain (by simp [hquote, hline]) .nil)
    exact .consumed (c :: u) rfl hplain

/-- A single quoted text is read up to the quote that ends it. -/
theorem singleQuotedText_consumes (p : List Char) :
    Ensures (State.At F ('\'' :: p) []) (singleQuotedText : Grammar π (Text (Span π)))
      (Consumes F ('\'' :: p) fun _ u => IsText ('\'' :: u.reverse)) := by
  refine .placeOf (by decide) (.callClean (repeating_consumes (M := fun _ _ => True)
    (fun g q _ => singleQuotedCharacter_reads _ g q)
    (fun _ _ h => singleQuotedCharacter_consumes _ h) trivial .nil)
    fun _ u ⟨cs, hu, hcs⟩ => .here ?_)
  exact .consumed u rfl (by rw [hu]; exact .singleQuoted hcs)

/-! ## Blocks -/

/-- What stands in front of the content of a block text: its delimiter, its tag and blanks. -/
theorem Opener.of_split (u : List Char) :
    ∃ tag blanks, u = (Opener.of u).quote ++ (tag ++ (blanks ++ (Opener.of u).content)) ∧
      (∀ c ∈ (Opener.of u).quote, endsBlockQuote c = false) ∧ (∀ c ∈ tag, isBlank c = false) ∧
      ∀ c ∈ blanks, isBlank c = true := by
  obtain ⟨blanks, hline, hblanks⟩ := openingOf_split
    ((u.dropWhile fun c => !endsBlockQuote c).dropWhile fun c => !isBlank c)
  refine ⟨(u.dropWhile fun c => !endsBlockQuote c).takeWhile fun c => !isBlank c, blanks, ?_,
    fun c hc => ?_, fun c hc => ?_, hblanks⟩
  · rw [Opener.of, ← hline, List.takeWhile_append_dropWhile, List.takeWhile_append_dropWhile]
  · simpa using List.all_eq_true.mp List.all_takeWhile c hc
  · simpa using List.all_eq_true.mp List.all_takeWhile c hc

/-- A block text is read up to the first delimiter that closes it. -/
theorem blockText_consumes (p : List Char) :
    Ensures (State.At F ('|' :: p) []) blockText
      (Consumes F ('|' :: p) fun _ u => IsText ('|' :: u.reverse)) := by
  intro s hs hclean
  obtain ⟨b, q, ⟨-, -, hfound⟩, -, hat, hnoted⟩ := blockText_finds hs
  rcases hfound with ⟨before, hfirst, hcontent⟩ | ⟨-, gathered, -, hcontent⟩
  · obtain ⟨tag, blanks, hunread, hquote, htag, hblanks⟩ := Opener.of_split s.reader.unread
    let o := Opener.of s.reader.unread
    have htext : IsText ('|' :: (o.quote ++ (tag ++ (blanks ++ (before ++ o.closer))))) :=
      .block hquote htag hblanks hfirst.upTo
    rw [← List.reverse_reverse (o.quote ++ _)] at htext
    have hq := consumed_unread (w := o.quote ++ (tag ++ (blanks ++ (before ++ o.closer)))) hs hat
      (hunread.trans (by simp only [hfirst.split, o, List.append_assoc]))
    exact ⟨_, hq ▸ hat, htext⟩
  · rw [hcontent] at hnoted
    obtain ⟨stop, hnoted⟩ := hnoted
    rw [hclean] at hnoted
    cases hnoted

/-! ## Texts and paths -/

/-- What is read of a text has one of its forms, with blanks in front of it, and is no more than a
gap where the text is missing. -/
def TextRead (r : Option (Text (Span π))) (u : List Char) : Prop :=
  (∃ front cs, u.reverse = front ++ cs ∧ LineBlanks front ∧ IsText cs) ∧ (r = none → Gap u.reverse)

theorem keyText_consumes (p : List Char) :
    Ensures (State.At F p []) (text .key) (Consumes F p TextRead) := by
  have hnothing : IsText [] := .bare .nil (by simp)
  refine .peekOverLine ?_ fun b c hb hc => .accept ?_
  · exact .consumed [] rfl ⟨⟨[], [], rfl, .nil, hnothing⟩, fun _ => .nil⟩
  rw [List.append_nil]
  -- the quoted texts and the block text differ in what is read behind their first character only
  have hquoted : ∀ {g : Grammar π (Text (Span π))},
      Ensures (State.At F (c :: (b ++ p)) []) g
        (Consumes F (c :: (b ++ p)) fun _ u => IsText (c :: u.reverse)) →
      Ensures (State.At F (c :: (b ++ p)) []) (g >>= fun t => pure (some t))
        (Consumes F p TextRead) := by
    refine fun hg => .callClean hg fun t u hu => .consumed (u ++ c :: b) (by simp) ⟨?_, nofun⟩
    exact ⟨b.reverse, c :: u.reverse, by simp, hb.reverse, hu⟩
  refine .ite ?_ fun hdouble => .ite ?_ fun hsingle => .ite ?_ fun hbar =>
    .known_of_consumed fun hknown => .putBack (ne_newline_of_visible hc) ?_
  · rintro rfl
    exact hquoted (doubleQuotedText_consumes _)
  · rintro rfl
    exact hquoted (singleQuotedText_consumes _)
  · rintro rfl
    exact hquoted (blockText_consumes _)
  · intro s hs hclean
    obtain ⟨u, hat, g, ⟨hbare, hgap⟩, hg⟩ :=
      unquotedText_consumes (unquotedKeeps_bare (p := b ++ p)) s hs hclean
    refine ⟨u ++ b, by simpa using hat, ⟨b.reverse, u.reverse, by simp, hb.reverse, ?_⟩,
      fun hnone => ?_⟩
    · -- the first character that was read is the one that has been put back, so it is no quote
      refine .bare (by simpa using hbare [] .nil (by simp)) fun x hx => ?_
      obtain rfl := Option.some.inj (hknown.symm.trans (consumed_head hat hx))
      simp [hdouble, hsingle, hbar]
    · rw [List.reverse_append]
      exact (Gap.blanks hb.reverse.blank).append (hgap (Gathered.blank_of_finish (hg hnone)))

/-- What is read of a path goes on as a path,
and in front of its first segment there is no more than a gap. -/
def PathBegun (segments : List (Text (Span π))) (u : List Char) : Prop :=
  (∀ cs, PathText cs → PathText (u.reverse ++ cs)) ∧ (segments = [] → Gap u.reverse)

/-- What is read of a path is a path, which is missing only where there is no more than a gap. -/
def PathRead (segments : List (Text (Span π))) (u : List Char) : Prop :=
  PathText u.reverse ∧ (segments = [] → Gap u.reverse)

theorem PathBegun.read {segments : List (Text (Span π))} {u : List Char}
    (h : PathBegun segments u) : PathRead segments u :=
  ⟨by simpa using h.1 [] .nil, h.2⟩

theorem pathSegment_consumes {segments : List (Text (Span π))} {u : List Char}
    (hu : PathBegun segments u) :
    Ensures (State.At F (u ++ p) []) (pathSegment segments)
      (Consumes F p (Next.Fits PathBegun PathRead)) := by
  refine .peekOnLine (.consumed u rfl hu.read) fun b c _ =>
    .retreat (.ite (fun _ => ?_) fun _ => ?_)
  · exact .consumed u rfl hu.read
  refine .callClean (keyText_consumes (u ++ p)) fun r w ⟨⟨front, cs, hw, hfront, hcs⟩, hgap⟩ => ?_
  -- the text ends the path unless a point follows, and then it is a segment with one behind it
  have hlast : PathText (w ++ u).reverse := by
    rw [List.reverse_append, hw]
    exact hu.1 _ (.last ⟨front, cs, [], by simp, hfront, hcs, .nil⟩)
  cases r with
  | none =>
    refine .consumed (w ++ u) (by simp) ⟨hlast, fun hnone => ?_⟩
    rw [List.reverse_append]
    exact (hu.2 hnone).append (hgap rfl)
  | some segment =>
    have hend : Ensures (State.At F (w ++ (u ++ p)) []) (pure (Next.stop (segment :: segments)))
        (Consumes F p (Next.Fits PathBegun PathRead)) :=
      .consumed (w ++ u) (by simp) ⟨hlast, nofun⟩
    refine .peekOverLine hend fun b c hb _ =>
      .ite (fun hpoint => .accept ?_) fun _ => .retreat hend
    refine .consumed (c :: (b ++ (w ++ u))) (by simp) ⟨fun ds hds => ?_, nofun⟩
    have hsegment : Segment (w.reverse ++ b.reverse) :=
      ⟨front, cs, b.reverse, by rw [hw, List.append_assoc], hfront, hcs, hb.reverse⟩
    simpa [hpoint] using hu.1 _ (.more hsegment hds)

/-- A path is spelled as one, and where it is missing, no more than a gap is consumed. -/
theorem path_consumes (p : List Char) :
    Ensures (State.At F p []) path
      (Consumes F p fun r u => PathText u.reverse ∧ (r = none → Gap u.reverse)) := by
  have hempty : PathBegun ([] : List (Text (Span π))) [] := ⟨fun _ h => h, fun _ => .nil⟩
  refine .here (.callClean (repeating_consumes (M := PathWithin F p.length) (I := PathBegun)
    (R := PathRead) (fun _ _ h => pathSegment_reads h) (fun _ _ h => pathSegment_consumes h)
    (Nat.le_refl _) hempty) fun segments u ⟨hpath, hgap⟩ => ?_)
  refine .ite (fun hnone => ?_) fun _ => .here (.consumed u rfl ⟨hpath, nofun⟩)
  exact .consumed u rfl ⟨hpath, fun _ => hgap (by simpa using hnone)⟩

/-! ## Edge indexes -/

/-- The digits of an index are read, with blanks between them, on one line. -/
def DigitsRead (digits : Option (List Char)) (u : List Char) : Prop :=
  digits ≠ none ∧ ∀ c ∈ u, c.isDigit = true ∨ isBlank c = true ∧ c ≠ '\n'

theorem indexDigit_consumes (start : π) {digits : Option (List Char)} {u : List Char}
    (h : DigitsRead digits u) :
    Ensures (State.At F (u ++ p) []) (indexDigit start digits)
      (Consumes F p (Next.Fits DigitsRead DigitsRead)) := by
  refine .peekOverLine .unclean_toHere fun b c hb hc => .ite (fun _ => .retreat ?_) fun _ =>
    .accept (.ite (fun hdigit => ?_) fun _ => .placeOf (ne_newline_of_visible hc) .unclean_toHere)
  · exact .consumed u rfl h
  · refine .consumed (c :: (b ++ u)) (by simp) ⟨by simpa using h.1, fun x hx => ?_⟩
    rcases List.mem_cons.mp hx with rfl | hx
    · exact .inl hdigit
    · exact (List.mem_append.mp hx).elim (fun hx => .inr (hb x hx)) (h.2 x)

/-- Where nothing is wrong, an index has been chosen. -/
theorem edgeChoice_consumes (start : π) (p : List Char) :
    Ensures (State.At F p []) (edgeChoice start)
      (Consumes F p fun choice u => choice ≠ none ∧ IndexText u.reverse) := by
  refine .peekOverLine .unclean_toHere fun b c hb hc => .ite (fun hdigit => .accept ?_) fun _ =>
    .ite (fun hstar => .accept ?_) fun _ =>
    .lookedPlace (.retreat (.before (ne_newline_of_visible hc) .unclean))
  · have hfirst : DigitsRead (some [c]) [] := ⟨by simp, List.forall_mem_nil _⟩
    refine .callClean (repeating_consumes (M := fun _ _ => True)
      (fun digits q _ => indexDigit_reads start digits q) (fun _ _ h => indexDigit_consumes start h)
      trivial hfirst) fun digits u hu => ?_
    refine .consumed (u ++ c :: b) (by simp) ⟨by simpa using hu.1, .number fun x hx => ?_⟩
    rcases List.mem_append.mp (List.mem_reverse.mp hx) with hx | hx
    · exact hu.2 x hx
    · rcases List.mem_cons.mp hx with rfl | hx
      · exact .inl hdigit
      · exact .inr (hb x hx)
  · refine .consumed (c :: b) (by simp) ⟨by simp, ?_⟩
    rw [List.reverse_cons, hstar]
    exact .all hb.reverse (.nil)

theorem indexEnd_consumes (start : π) (p : List Char) :
    Ensures (State.At F p []) (indexEnd start)
      (Consumes F p fun _ u => ∃ b, u = ']' :: b ∧ LineBlanks b) := by
  refine .peekOverLine (.last .unclean_toHere) fun b c hb _ => .ite (fun hc => .last (.accept ?_))
    fun _ => .retreat (.last .unclean_toHere)
  exact .consumed (c :: b) (by simp) ⟨b, by rw [hc], hb⟩

/-- An edge index is read up to the bracket that closes it. -/
theorem edgeIndex_consumes (p : List Char) :
    Ensures (State.At F ('[' :: p) []) edgeIndex
      (Consumes F ('[' :: p) fun _ u => ∃ cs, u.reverse = cs ++ [']'] ∧ IndexText cs) := by
  refine .placeOf (by decide)
    (.callClean (edgeChoice_consumes _ _) fun choice u ⟨hchosen, hu⟩ => ?_)
  cases choice with
  | none => exact absurd rfl hchosen
  | some choice =>
    refine .callClean (indexEnd_consumes _ _) fun _ w ⟨b, hw, hb⟩ => .here ?_
    subst hw
    exact .consumed (']' :: (b ++ u)) (by simp)
      ⟨u.reverse ++ b.reverse, by simp, hu.behind hb.reverse⟩

end Grammar

end Diagram
