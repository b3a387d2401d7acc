import Diagram.Proofs.Atoms.Basic
import Diagram.Proofs.Block.Closing
import Diagram.Proofs.Diagnostics.Container

/-!
Blocks without their closing delimiter. The search for it looks ahead behind each character that may
start it. Where the source ends before the look-ahead does, the search gives up: the character in
front is lost, and what has been looked at is read once more, as what follows the block. Only a
block whose content has no such character near its end runs up to the end of the source.
-/
namespace Diagram.Grammar

variable {π : Type} {F : Frame π} {p : List Char}

/-! ## The end of the source -/

theorem here_marks :
    Ensures (State.At F p []) here
      (Onward F p.length fun start j => start = F.mark p.length ∧ j = p.length) := by
  rw [← bind_pure here]
  exact .here (.done (Nat.le_refl _) ⟨rfl, rfl⟩)

section

variable [DecidableEq π]

/-- Nothing is left of the source: no entry and no item is read from here on, and no text behind a
node is reported. -/
structure Exhausted (s : State π) : Prop where
  unread : s.reader.unread = []
  trailing : ∀ typeName closing fallback,
    (trailingText typeName closing fallback s).2.problems = s.problems
  entries : ∀ value opened entries, (repeating (mapStep value opened) entries s).1 = entries
  items : ∀ value start items, (repeating (sequenceStep value start) items s).1 = items

/-- No text behind a node is reported among blanks. -/
theorem trailingText_blank (typeName : Option String) (closing : Char) (fallback : Cause)
    {xs : List (Problem π)} (hblank : ∀ c ∈ F.text.drop p.length, isBlank c = true) :
    Ensures (fun s => s.At F p [] ∧ s.problems = xs) (trailingText typeName closing fallback)
      fun _ s => s.problems = xs := by
  refine .callQuiet (fun _ => rfl) here_marks fun start q _ ⟨hstart, hq⟩ => ?_
  have hnone : Ensures (State.At F q []) (repeating (trailingCharacter closing) ())
      (Onward F q.length fun _ j => j = q.length) :=
    .repeating_once (.peekOnLineBlank (by rwa [hq]) (.stops (Nat.le_refl _) rfl))
  refine .callQuiet (.repeating (quiet_trailingCharacter closing) ()) hnone fun _ q' _ hq' => ?_
  refine .callQuiet (fun _ => rfl) here_marks fun stop _ _ ⟨hstop, _⟩ => ?_
  rw [hstart, hstop, hq', hq, bne_self_eq_false]
  exact .pure fun _ hs => hs.2

theorem Exhausted.of_unread {s : State π} (hs : s.At F p []) (hunread : s.reader.unread = []) :
    Exhausted s := by
  have hend : F.text.drop p.length = [] := hs.reader.unread_eq.symm.trans hunread
  have hblank : ∀ c ∈ F.text.drop p.length, isBlank c = true := by
    rw [hend]
    exact List.forall_mem_nil _
  refine ⟨hunread, fun typeName closing fallback => ?_, fun value opened entries => ?_,
    fun value start items => ?_⟩
  · exact trailingText_blank typeName closing fallback hblank s ⟨hs, rfl⟩
  · have hstop : Ensures (State.At F p []) (repeating (mapStep value opened) entries)
        fun x _ => x = entries :=
      .repeating_once (.readVisibleBlank hblank fun _ _ _ _ => ⟨entries, rfl, rfl⟩)
    exact hstop s hs
  · have hstop : Ensures (State.At F p []) (repeating (sequenceStep value start) items)
        fun x _ => x = items :=
      .repeating_once (.readVisibleBlank hblank fun _ _ _ _ => ⟨items, rfl, rfl⟩)
    exact hstop s hs

/-! ## Blocks that are not closed -/

/-- A block that starts at the index `i` has been read up to `s`, and its content holds no `closer`:
it has all of the content and takes the source to its end, unless a character that may start
`closer` stands too close to the end. Then it has the text in front of the first such character and
ends behind that. `reads` says what is read from the text that the block has. -/
structure EndsOpen (F : Frame π) (i : Nat) (closer content : List Char)
    (reads : List Char → Span π → Prop) (s : State π) : Prop where
  whole : (∀ before after, ¬CutAt closer content before after) →
    reads content (F.cover i F.text.length) ∧ Exhausted s
  cut : ∀ b a, CutAt closer content b a → ∃ before after q, FirstCutAt closer content before after ∧
    s.At F q [] ∧ s.reader.unread = after ∧ reads before (F.cover i q.length)

theorem EndsOpen.of_found {i : Nat} {closer content text q : List Char}
    {reads : List Char → Span π → Prop} {c : Content} {s : State π}
    (hfound : Found closer content text c (F.text.drop q.length)) (hs : s.At F q [])
    (hmissing : ¬closer <:+: content)
    (hreads : ∀ kept, c = ⟨kept.reverse ++ text, false⟩ → reads kept (F.cover i q.length)) :
    EndsOpen F i closer content reads s := by
  rcases hfound with ⟨before, hfirst, -⟩ | ⟨-, gathered, hgathered, rfl⟩
  · exact absurd hfirst.occurs hmissing
  have hunread := unread_of_drop hs rfl
  rcases hgathered with ⟨rfl, hleft, hnone⟩ | ⟨before, hfirst, rfl⟩
  · refine ⟨fun _ => ?_, fun b a hcut => absurd hcut (hnone b a)⟩
    have hlength : q.length = F.text.length :=
      Nat.le_antisymm (by simpa using hs.reader.length_le) (List.drop_eq_nil_iff.mp hleft)
    rw [← hlength]
    exact ⟨hreads content rfl, .of_unread hs (hunread.trans hleft)⟩
  · refine ⟨fun hnone => absurd hfirst.toCutAt (hnone _ _), fun _ _ _ => ?_⟩
    exact ⟨before, _, q, hfirst, hs, hunread, hreads before rfl⟩

end

/-- **Blocks without an end**: a block text or a block comment whose closing delimiter does not
occur in its content has the dedented content up to the end of the source, with nothing left to
read, unless a character that may start the delimiter stands too close to the end. -/
theorem unclosed_blocks_end [DecidableEq π] (F : Frame π) (p : List Char) (s : State π) :
    (s.At F ('|' :: p) [] →
      let opener := Opener.of s.reader.unread
      ¬opener.closer <:+: opener.content →
        EndsOpen F p.length opener.closer opener.content
          (fun kept range => ∃ tag, (blockText s).1 = .block range (String.ofList opener.quote) tag
            (String.ofList (dedent (opener.indent (F.depth + 1) ++ kept)))) (blockText s).2) ∧
    (s.At F ('"' :: '"' :: '"' :: p) [] →
      let content := (openingOf s.reader.unread).2
      ¬['"', '"', '"'] <:+: content →
        EndsOpen F p.length ['"', '"', '"'] content
          (fun kept range => (blockComment s).1 = ⟨range, String.ofList (dedent kept)⟩)
          (blockComment s).2) := by
  constructor
  · intro hs opener hmissing
    obtain ⟨b, q, ⟨hquote, -, hfound⟩, ht, hs', -⟩ := blockText_finds hs
    refine .of_found hfound hs' hmissing fun kept hcontent => ⟨String.ofList b.tag, ?_⟩
    rw [ht, hquote, hcontent, List.reverse_append, List.reverse_reverse, Opener.indent_reverse]
  · intro hs content hmissing
    obtain ⟨c, q, hfound, hc, hs', -⟩ := blockComment_finds hs
    refine .of_found hfound hs' hmissing fun kept hcontent => ?_
    rw [hc, hcontent, List.append_nil, List.reverse_reverse]

/-- A state in which some of a source has been read. -/
theorem exists_state_behind (front rest : List Char) :
    ∃ s : State Nat, s.At (.ofSource .index Meter.index_lawful (deliveries (front ++ rest)) 64)
        front.reverse [] ∧ s.reader.unread = rest := by
  have hstart := State.ofSource_at Meter.index_lawful (deliveries (front ++ rest)) 64
  have hunread : (State.ofSource Meter.index (deliveries (front ++ rest)) 64).reader.unread =
      front ++ rest := by
    rw [hstart.reader.unread_eq]
    exact delivered_deliveries (front ++ rest)
  obtain ⟨r, -, hr, -⟩ := hstart.reader.peekMany_some front.length (by rw [hunread]; simp)
  rw [hunread, List.take_left, List.append_nil] at hr
  have hs := hstart.setReader hr.accept
  rw [List.append_nil] at hs
  refine ⟨_, hs, ?_⟩
  rw [hr.accept.unread_eq]
  simp [Frame.ofSource, delivered_deliveries]

/-- A block text that is read to its end, and a block comment that loses one of its quotes. -/
theorem unclosed_blocks_end_quotes :
    (∃ s : State Nat, s.reader.unread = " a".toList ∧
      (∃ range tag, (blockText s).1 = .block range "" tag "a") ∧ Exhausted (blockText s).2) ∧
    ∃ s : State Nat, s.reader.unread = "a\"\"".toList ∧
      (∃ range, (blockComment s).1 = ⟨range, "a"⟩) ∧ (blockComment s).2.reader.unread = ['"'] := by
  constructor
  · obtain ⟨s, hs, hunread⟩ := exists_state_behind ['|'] " a".toList
    have hends := (unclosed_blocks_end _ _ s).1 hs
    rw [hunread] at hends
    have hnone : ∀ before after, ¬CutAt ['|'] ['a'] before after := by
      intro before after hcut
      exact absurd hcut.short (by simp)
    obtain ⟨⟨tag, htext⟩, hexhausted⟩ := (hends (by decide)).whole hnone
    exact ⟨s, hunread, ⟨_, tag, htext⟩, hexhausted⟩
  · obtain ⟨s, hs, hunread⟩ := exists_state_behind ['"', '"', '"'] "a\"\"".toList
    have hends := (unclosed_blocks_end _ _ s).2 hs
    rw [hunread] at hends
    have hquotes : FirstCutAt ['"', '"', '"'] ['"', '"'] [] ['"'] := .here rfl (by decide)
    have hfirst : FirstCutAt ['"', '"', '"'] "a\"\"".toList ['a'] ['"'] :=
      hquotes.cons fun hcut => absurd hcut.short (by decide)
    obtain ⟨before, after, q, hbefore, -, hafter, hcomment⟩ :=
      (hends (by decide)).cut _ _ hfirst.toCutAt
    obtain ⟨rfl, rfl⟩ := hfirst.unique hbefore
    exact ⟨s, hunread, ⟨_, hcomment⟩, hafter⟩

/-- Where the source cuts a closing delimiter off, what is there of it does not belong to the block,
and its last character is reported as text behind the block. -/
theorem parseText_loses_delimiter :
    let opener := Opener.of "|| a||".toList
    let output := parseText "" "x: ||| a||" {}
    ¬opener.closer <:+: opener.content ∧
      dedent (opener.indent 1 ++ opener.content) = "a||".toList ∧
      .scalar (.text (.block ⟨"", ⟨0, 3, 3⟩, ⟨0, 9, 9⟩⟩ "||" "md" "a")) ∈ output.map.atoms ∧
      ∃ d ∈ output.diagnostics, d.code = .unexpectedText ∧
        d.range = ⟨"", ⟨0, 9, 9⟩, ⟨0, 10, 10⟩⟩ := by
  intro opener output
  exact ⟨by decide, by decide, by decide +kernel, by decide +kernel⟩

end Diagram.Grammar
