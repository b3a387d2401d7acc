import Diagram.Proofs.Block.Content
import Diagram.Proofs.Diagnostics.Text
import Diagram.Proofs.Sound.Parse

/-!
Blocks end at the first occurrence of their closing delimiter. What stands in front of it is the
content, what stands behind it is left unread, and only a block without one is reported.
-/
namespace Diagram.Grammar

variable {π α β : Type} {F : Frame π} {p u : List Char}

/-! ## Content behind an opening delimiter -/

/-- The parts of the text behind the `|` that opens a block text. -/
structure Opener where
  /-- The inner part of the delimiters. -/
  quote : List Char
  tag : List Char
  /-- How the line of the opening delimiter goes on. -/
  opening : Opening
  content : List Char

/-- What closes a block text. -/
def Opener.closer (o : Opener) : List Char := o.quote ++ ['|']

/-- What stands in front of the content of a block text `depth` levels deep. -/
def Opener.indent (o : Opener) (depth : Nat) : List Char :=
  if o.opening = .sameLine then indentOf depth else []

/-- The text behind a `|` is divided into the longest run that may be a delimiter, the longest
visible run behind it and the content. -/
def Opener.of (u : List Char) : Opener :=
  let behind := u.dropWhile fun c => !endsBlockQuote c
  let tag := behind.takeWhile fun c => !isBlank c
  let line := openingOf (behind.dropWhile fun c => !isBlank c)
  ⟨u.takeWhile fun c => !endsBlockQuote c, if tag.isEmpty then defaultTag else tag, line.1, line.2⟩

theorem textContentFrom_finds (quote text : List Char) (hu : F.text.drop p.length = u) :
    Ensures (State.At F p []) (textContentFrom quote text)
      (Onward F p.length fun content j =>
        Found (quote ++ ['|']) u text content (F.text.drop j)) := by
  cases quote with
  | nil => exact blockContent_finds '|' [] text hu
  | cons first rest => exact blockContent_finds first (rest ++ ['|']) text hu

/-- Where a line ends the source, there is no content. -/
theorem openingOf_ended {v : List Char} (h : openingOf u = (.ended, v)) : v = [] := by
  induction u with
  | nil => exact (Prod.mk.inj h).2.symm
  | cons c u ih =>
    rw [openingOf] at h
    split at h
    · split at h
      · simp at h
      · exact ih h
    · simp at h

theorem Opener.indent_reverse (o : Opener) (depth : Nat) :
    (o.indent depth).reverse = o.indent depth := by
  rw [indent]
  split
  · rw [indentOf, List.reverse_replicate]
  · rfl

theorem textContent_finds (quote : List Char) {o : Opening} {v : List Char}
    (hu : openingOf (F.text.drop p.length) = (o, v)) :
    Ensures (State.At F p []) (textContent quote)
      (Onward F p.length fun content j =>
        Found (quote ++ ['|']) v (if o = .sameLine then indentOf F.depth else []) content
          (F.text.drop j)) := by
  refine .call (opening_skips rfl) fun o' q hq ho => ?_
  obtain ⟨rfl, hv⟩ := Prod.mk.inj (ho.trans hu)
  cases o' with
  | ended =>
    -- the source ends before any content, so the delimiter is missing from it
    obtain rfl := openingOf_ended hu
    refine .done hq ?_
    rw [hv]
    exact .nothing (by simp) []
  | newLine => exact (textContentFrom_finds quote [] hv).tail hq fun _ _ _ h => h
  | sameLine => exact .depth ((textContentFrom_finds quote _ hv).tail hq fun _ _ _ h => h)

/-- A block text `depth` levels deep, with `left` unread behind it, has the parts that the text
behind its `|` is divided into. -/
def Opener.Gives (o : Opener) (depth : Nat) (b : Block) (left : List Char) : Prop :=
  b.quote = o.quote ∧ (b.content.closed = true → b.tag = o.tag) ∧
    Found o.closer o.content (o.indent depth) b.content left

/-- Where the source ends on the line of the opening delimiter, the block has no content. -/
theorem Opener.found_nothing {o : Opener} {depth : Nat}
    (h : (o.opening, o.content) = (.ended, [])) :
    Found o.closer o.content (o.indent depth) ⟨[], false⟩ [] := by
  obtain ⟨hopening, hcontent⟩ := Prod.mk.inj h
  have hindent : o.indent depth = [] := by rw [indent, hopening, if_neg (by decide)]
  rw [hcontent, hindent]
  exact .nothing (by simp [closer]) []

theorem block_finds (hu : F.text.drop p.length = u) :
    Ensures (State.At F p []) block
      (Onward F p.length fun b j => (Opener.of u).Gives F.depth b (F.text.drop j)) := by
  refine .call (runUntil_takes endsBlockQuote hu) fun r q hq h => ?_
  obtain ⟨rfl, hbehind⟩ := h
  refine .ite (fun hended => .done hq ⟨rfl, by simp, ?_⟩) fun _ => ?_
  · rw [hbehind, List.isEmpty_iff.mp hended]
    exact Opener.found_nothing (by rw [Opener.of, List.isEmpty_iff.mp hended]; rfl)
  refine .call (runUntil_takes isBlank hbehind) fun r q' hq' h => ?_
  obtain ⟨rfl, hline⟩ := h
  refine .ite (fun hended => .done (by omega) ⟨rfl, by simp, ?_⟩) fun _ => ?_
  · rw [hline, List.isEmpty_iff.mp hended]
    exact Opener.found_nothing (by rw [Opener.of, List.isEmpty_iff.mp hended]; rfl)
  refine .call (textContent_finds _ (congrArg openingOf hline)) fun content q'' hq'' h => ?_
  exact .done (by omega) ⟨rfl, fun _ => rfl, h⟩

theorem commentContent_finds (hu : F.text.drop p.length = u) :
    Ensures (State.At F p []) commentContent (Onward F p.length fun content j =>
      Found ['"', '"', '"'] (openingOf u).2 [] content (F.text.drop j)) := by
  refine .call (opening_skips hu) fun o q hq ho => ?_
  rw [← ho]
  cases o with
  | ended =>
    obtain hnil : F.text.drop q.length = [] := openingOf_ended ho.symm
    refine .done hq ?_
    rw [hnil]
    exact .nothing (by simp) []
  | newLine | sameLine => exact (blockContent_finds '"' ['"', '"'] [] rfl).tail hq fun _ _ _ h => h

/-! ## Reports -/

/-- A part that notices nothing and that something follows. -/
theorem Ensures.callQuiet {P : State π → Prop} {Q : β → State π → Prop} {g : Grammar π α}
    {f : α → Grammar π β} {m : Nat} {R : α → Nat → Prop} {xs : List (Problem π)} (hquiet : Quiet g)
    (hg : Ensures P g (Onward F m R))
    (hf : ∀ a q, m ≤ q.length → R a q.length →
      Ensures (fun s => s.At F q [] ∧ s.problems = xs) (f a) Q) :
    Ensures (fun s => P s ∧ s.problems = xs) (g >>= f) Q := by
  intro s ⟨hs, hproblems⟩
  obtain ⟨q, hq, hs', hR⟩ := hg s hs
  exact hf _ q hq hR _ ⟨hs', (hquiet s).trans hproblems⟩

/-- A part one level deeper that notices nothing and that something follows. -/
theorem Ensures.nestedQuiet {Q : β → State π → Prop} {g : Grammar π α} {f : α → Grammar π β}
    {R : α → Nat → Prop} {xs : List (Problem π)} (hquiet : Quiet g)
    (hg : Ensures (State.At F.deeper p []) g (Onward F.deeper p.length R))
    (hf : ∀ a q, p.length ≤ q.length → R a q.length →
      Ensures (fun s => s.At F q [] ∧ s.problems = xs) (f a) Q) :
    Ensures (fun s => s.At F p [] ∧ s.problems = xs) (Grammar.nested g >>= f) Q := by
  refine .callQuiet (.nested hquiet) ?_ hf
  rw [← bind_pure (Grammar.nested g)]
  exact .nested hg fun _ _ hq hR => .done hq hR

/-- What has been noticed by the end of a block that starts at a place: nothing if it is closed. -/
def NotedUnless (cause : Cause) (start : π) (closed : Bool)
    (before after : List (Problem π)) : Prop :=
  if closed then after = before else ∃ stop, after = ⟨cause, .place start, stop⟩ :: before

/-- The end of a block, which is reported if it is not closed. -/
theorem Ensures.closing {cause : Cause} {start : π} {closed : Bool} {k : π → β}
    {xs : List (Problem π)} :
    Ensures (fun s => s.At F p [] ∧ s.problems = xs)
      (Grammar.whenever (!closed) (Grammar.reportToReach cause start) >>= fun _ =>
        Grammar.here >>= fun stop => Pure.pure (k stop))
      fun b s => b = k (F.mark p.length) ∧ s.At F p [] ∧
        NotedUnless cause start closed xs s.problems := by
  intro s ⟨hs, hproblems⟩
  have hstays : Ensures (State.At F p []) (Grammar.whenever (!closed)
      (Grammar.reportToReach cause start) >>= fun _ => Grammar.here >>= fun stop =>
        Pure.pure (k stop))
      fun b s => b = k (F.mark p.length) ∧ s.At F p [] :=
    .whenever (fun _ => .reportToReach_stays) (.here (.pure fun _ hs => ⟨rfl, hs⟩))
  obtain ⟨hresult, hs'⟩ := hstays s hs
  refine ⟨hresult, hs', ?_⟩
  cases closed with
  | true => exact hproblems
  | false => exact ⟨_, congrArg (List.cons _) hproblems⟩

/-- A block that starts at the index `i` and should be closed by `closer` is read from `s` to `s'`:
it is reported exactly if its content holds no `closer`, and otherwise it ends behind the first,
with everything behind that unread. `reads` says what is read from the text in front of it. -/
structure ClosesAtFirst (F : Frame π) (i : Nat) (cause : Cause) (closer content : List Char)
    (reads : List Char → Span π → Prop) (s s' : State π) : Prop where
  reported : (∃ stop, s'.problems = ⟨cause, .place (F.mark i), stop⟩ :: s.problems) ↔
    ¬closer <:+: content
  quiet : closer <:+: content → s'.problems = s.problems
  closed : closer <:+: content → ∃ before after q, FirstAt closer content before after ∧
    s'.At F q [] ∧ s'.reader.unread = after ∧ reads before (F.cover i q.length)

theorem FirstAt.occurs {closer text before after : List Char}
    (h : FirstAt closer text before after) : closer <:+: text :=
  ⟨before, after, by rw [h.split, List.append_assoc]⟩

/-- A text has one first occurrence. -/
theorem FirstAt.unique {closer text b a b' a' : List Char} (h : FirstAt closer text b a)
    (h' : FirstAt closer text b' a') : b = b' ∧ a = a' := by
  have hlength : b.length = b'.length :=
    Nat.le_antisymm (h.first b' a' h'.split) (h'.first b a h.split)
  obtain ⟨rfl, hbehind⟩ := List.append_inj (h.split.symm.trans h'.split) hlength
  exact ⟨rfl, List.append_cancel_left hbehind⟩

theorem ClosesAtFirst.of_found {i : Nat} {cause : Cause} {closer content text q : List Char}
    {reads : List Char → Span π → Prop} {c : Content} {s s' : State π}
    (hfound : Found closer content text c (F.text.drop q.length)) (hs' : s'.At F q [])
    (hnoted : NotedUnless cause (F.mark i) c.closed s.problems s'.problems)
    (hreads : ∀ before, c = ⟨before.reverse ++ text, true⟩ → reads before (F.cover i q.length)) :
    ClosesAtFirst F i cause closer content reads s s' := by
  rcases hfound with ⟨before, hfirst, rfl⟩ | ⟨hmissing, gathered, -, rfl⟩
  · have hquiet : s'.problems = s.problems := hnoted
    refine ⟨⟨?_, fun h => absurd hfirst.occurs h⟩, fun _ => hquiet, fun _ => ?_⟩
    · rintro ⟨stop, h⟩
      simp [hquiet] at h
    · exact ⟨before, _, q, hfirst, hs', unread_of_drop hs' rfl, hreads before rfl⟩
  · exact ⟨⟨fun _ => hmissing, fun _ => hnoted⟩, fun h => absurd h hmissing,
      fun h => absurd h hmissing⟩

theorem placeOf_marks {c : Char} (hc : c ≠ '\n') :
    Ensures (State.At F (c :: p) []) (placeOf c)
      (Onward F (p.length + 1) fun start j => start = F.mark p.length ∧ j = p.length + 1) := by
  rw [← bind_pure (placeOf c)]
  exact .placeOf hc (.done (Nat.le_refl _) ⟨rfl, rfl⟩)

/-- A block text has what is found behind its `|`, and is reported if that is not closed. -/
theorem blockText_finds {s : State π} (hs : s.At F ('|' :: p) []) :
    let opener := Opener.of s.reader.unread
    ∃ (b : Block) (q : List Char), opener.Gives (F.depth + 1) b (F.text.drop q.length) ∧
      (blockText s).1 = .block (F.cover p.length q.length) (String.ofList b.quote)
        (String.ofList b.tag) (String.ofList (dedent b.content.text.reverse)) ∧
      (blockText s).2.At F q [] ∧
      NotedUnless (.unterminatedBlockText (String.ofList b.quote)) (F.mark p.length)
        b.content.closed s.problems (blockText s).2.problems := by
  intro opener
  have hunread : F.text.drop (p.length + 1) = s.reader.unread := hs.reader.unread_eq.symm
  have hread : Ensures (fun s' => s'.At F ('|' :: p) [] ∧ s'.problems = s.problems) blockText
      fun t s' => ∃ (b : Block) (q : List Char),
        opener.Gives (F.depth + 1) b (F.text.drop q.length) ∧
        t = .block (F.cover p.length q.length) (String.ofList b.quote) (String.ofList b.tag)
          (String.ofList (dedent b.content.text.reverse)) ∧ s'.At F q [] ∧
        NotedUnless (.unterminatedBlockText (String.ofList b.quote)) (F.mark p.length)
          b.content.closed s.problems s'.problems := by
    refine .callQuiet .placeOf (placeOf_marks (by decide)) fun start q _ ⟨hstart, hq⟩ => ?_
    subst hstart
    have hblock := block_finds (F := F.deeper) (p := q) (hq ▸ hunread)
    refine .nestedQuiet quiet_block hblock fun b q' _ h => ?_
    refine Ensures.closing.weaken fun t s' ht => ?_
    exact ⟨b, q', h, ht⟩
  exact hread s ⟨hs, rfl⟩

/-- A block text is closed by the first occurrence of its delimiter. -/
theorem blockText_closes {s : State π} (hs : s.At F ('|' :: p) []) :
    let opener := Opener.of s.reader.unread
    ClosesAtFirst F p.length (.unterminatedBlockText (String.ofList opener.quote)) opener.closer
      opener.content
      (fun before range => (blockText s).1 = .block range (String.ofList opener.quote)
        (String.ofList opener.tag) (String.ofList (dedent (opener.indent (F.depth + 1) ++ before))))
      s (blockText s).2 := by
  intro opener
  obtain ⟨b, q, ⟨hquote, htag, hfound⟩, ht, hs', hnoted⟩ := blockText_finds hs
  rw [hquote] at hnoted ht
  refine .of_found hfound hs' hnoted fun before hcontent => ?_
  rw [ht, htag (by rw [hcontent]), hcontent, List.reverse_append, List.reverse_reverse,
    Opener.indent_reverse]

/-- A block comment has what is found behind its quotes, and is reported if that is not closed. -/
theorem blockComment_finds {s : State π} (hs : s.At F ('"' :: '"' :: '"' :: p) []) :
    ∃ (content : Content) (q : List Char),
      Found ['"', '"', '"'] (openingOf s.reader.unread).2 [] content (F.text.drop q.length) ∧
      (blockComment s).1 =
        ⟨F.cover p.length q.length, String.ofList (dedent content.text.reverse)⟩ ∧
      (blockComment s).2.At F q [] ∧
      NotedUnless .unterminatedBlockComment (F.mark p.length) content.closed s.problems
        (blockComment s).2.problems := by
  have hunread : F.text.drop (p.length + 3) = s.reader.unread := hs.reader.unread_eq.symm
  have hplace : Ensures (State.At F ('"' :: '"' :: '"' :: p) [])
      (here >>= fun stop => beforeAll stop ['"', '"', '"'])
      (Onward F (p.length + 3) fun start j => start = F.mark p.length ∧ j = p.length + 3) := by
    refine .here ?_
    rw [← bind_pure (beforeAll _ _)]
    exact .beforeAll (b := []) (p := p) rfl rfl (by simp) (.done (Nat.le_refl _) ⟨rfl, rfl⟩)
  have hread : Ensures (fun s' => s'.At F ('"' :: '"' :: '"' :: p) [] ∧ s'.problems = s.problems)
      blockComment fun c s' => ∃ (content : Content) (q : List Char),
        Found ['"', '"', '"'] (openingOf s.reader.unread).2 [] content (F.text.drop q.length) ∧
        c = ⟨F.cover p.length q.length, String.ofList (dedent content.text.reverse)⟩ ∧
        s'.At F q [] ∧
        NotedUnless .unterminatedBlockComment (F.mark p.length) content.closed
          s.problems s'.problems := by
    rw [blockComment, ← bind_assoc]
    refine .callQuiet (.bind (fun _ => rfl) fun _ => .beforeAll) hplace
      fun start q _ ⟨hstart, hq⟩ => ?_
    subst hstart
    have hcontent := commentContent_finds (F := F.deeper) (p := q) (hq ▸ hunread)
    refine .nestedQuiet quiet_commentContent hcontent fun content q' _ h => ?_
    refine Ensures.closing.weaken fun c s' hc => ?_
    exact ⟨content, q', h, hc⟩
  exact hread s ⟨hs, rfl⟩

/-- A block comment is closed by the first three quotes. -/
theorem blockComment_closes {s : State π} (hs : s.At F ('"' :: '"' :: '"' :: p) []) :
    ClosesAtFirst F p.length .unterminatedBlockComment ['"', '"', '"'] (openingOf s.reader.unread).2
      (fun before range => (blockComment s).1 = ⟨range, String.ofList (dedent before)⟩)
      s (blockComment s).2 := by
  obtain ⟨content, q, hfound, hc, hs', hnoted⟩ := blockComment_finds hs
  refine .of_found hfound hs' hnoted fun before hcontent => ?_
  rw [hc, hcontent, List.append_nil, List.reverse_reverse]

/-- **Closing delimiters**: a block text and a block comment end behind the first occurrence of
their closing delimiter in their content, hold the dedented text in front of it and leave everything
behind it unread; they are reported exactly if there is none. -/
theorem blocks_close_at_first (F : Frame π) (p : List Char) (s : State π) :
    (s.At F ('|' :: p) [] →
      let opener := Opener.of s.reader.unread
      ClosesAtFirst F p.length (.unterminatedBlockText (String.ofList opener.quote)) opener.closer
        opener.content
        (fun before range => (blockText s).1 = .block range (String.ofList opener.quote)
          (String.ofList opener.tag)
          (String.ofList (dedent (opener.indent (F.depth + 1) ++ before))))
        s (blockText s).2) ∧
    (s.At F ('"' :: '"' :: '"' :: p) [] →
      ClosesAtFirst F p.length .unterminatedBlockComment ['"', '"', '"']
        (openingOf s.reader.unread).2
        (fun before range => (blockComment s).1 = ⟨range, String.ofList (dedent before)⟩)
        s (blockComment s).2) :=
  ⟨blockText_closes, blockComment_closes⟩

/-- A block text between doubled pipes, with a single one in it. -/
def pipedText : List Char := "|| a|b || c".toList

/-- A block comment with two of its quotes in it. -/
def quotedComment : List Char := "\"\"\"a\"\"b\"\"\"c".toList

/-- Part of a closing delimiter ends neither a block text nor a block comment. -/
theorem blocks_close_at_first_overlap :
    (∃ s : State Nat,
      s.At (.ofSource .index Meter.index_lawful (deliveries pipedText) 64) ['|'] [] ∧
      (∃ range, (blockText s).1 = .block range "|" "md" "a|b") ∧
      (blockText s).2.reader.unread = [' ', 'c'] ∧ (blockText s).2.problems = s.problems) ∧
    ∃ s : State Nat, s.At (.ofSource .index Meter.index_lawful (deliveries quotedComment) 64)
        ['"', '"', '"'] [] ∧
      (∃ range, (blockComment s).1 = ⟨range, "a\"\"b"⟩) ∧
      (blockComment s).2.reader.unread = ['c'] ∧ (blockComment s).2.problems = s.problems := by
  constructor
  · have hstart := State.ofSource_at Meter.index_lawful (deliveries pipedText) 64
    obtain ⟨r, -, hr, -⟩ :=
      hstart.reader.read_cons (c := '|') (u := "| a|b || c".toList) (by decide)
    refine ⟨_, hstart.setReader hr, ?_⟩
    have hunread : r.unread = "| a|b || c".toList := by
      rw [hr.unread_eq]
      decide
    have hcloses := (blocks_close_at_first _ _ _).1 (hstart.setReader hr)
    rw [hunread] at hcloses
    -- the first occurrence is unique, so it is enough to show this one
    have hfirst : FirstAt ['|', '|'] "a|b || c".toList "a|b ".toList [' ', 'c'] :=
      ((((FirstAt.here ['|', '|'] [' ', 'c']).cons (by decide)).cons (by decide)).cons
        (by decide)).cons (by decide)
    obtain ⟨before, after, q, hbefore, -, hafter, htext⟩ := hcloses.closed hfirst.occurs
    obtain ⟨rfl, rfl⟩ := hfirst.unique hbefore
    exact ⟨⟨_, htext⟩, hafter, hcloses.quiet hfirst.occurs⟩
  · have hstart := State.ofSource_at Meter.index_lawful (deliveries quotedComment) 64
    obtain ⟨r, -, hr, -⟩ := hstart.reader.peekMany_some 3 (by decide)
    refine ⟨_, hstart.setReader hr.accept, ?_⟩
    have hunread : r.accept.unread = "a\"\"b\"\"\"c".toList := by
      rw [hr.accept.unread_eq]
      decide
    have hcloses := (blocks_close_at_first _ _ _).2 (hstart.setReader hr.accept)
    rw [hunread] at hcloses
    have hfirst : FirstAt ['"', '"', '"'] "a\"\"b\"\"\"c".toList "a\"\"b".toList ['c'] :=
      ((((FirstAt.here ['"', '"', '"'] ['c']).cons (by decide)).cons (by decide)).cons
        (by decide)).cons (by decide)
    obtain ⟨before, after, q, hbefore, -, hafter, hcomment⟩ := hcloses.closed hfirst.occurs
    obtain ⟨rfl, rfl⟩ := hfirst.unique hbefore
    exact ⟨⟨_, hcomment⟩, hafter, hcloses.quiet hfirst.occurs⟩

end Diagram.Grammar
