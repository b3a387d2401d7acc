import Diagram.Proofs.Separator.Container
import Diagram.Proofs.Twin.Handover

/-!
A file that goes on behind a semicolon. Up to the semicolon, the run over it stands beside the run
over the text in front; behind it, it stands beside the run over the text that follows.
-/
namespace Diagram

/-! ## In front of the semicolon -/

/-- A run over the text `a`, and a run over it with a semicolon and `b` behind it. -/
def Seam.ofTexts (a b : List Char) (limit : Nat) : Seam where
  first := .ofSource .index Meter.index_lawful (deliveries a) limit
  second := .ofSource .index Meter.index_lawful (deliveries (a ++ ';' :: b)) limit
  behind := b
  meter := rfl
  second_meter := rfl
  text := by simp [Frame.ofSource, delivered_deliveries]
  depth := rfl
  limit := rfl
  inGroup := rfl

theorem Seam.ofTexts_first (a b : List Char) (limit : Nat) :
    (Seam.ofTexts a b limit).first.text = a :=
  delivered_deliveries a

theorem Seam.Beside.ofTexts (a b : List Char) (limit : Nat) :
    (Seam.ofTexts a b limit).Beside [] [] (.ofSource .index (deliveries a) limit)
      (.ofSource .index (deliveries (a ++ ';' :: b)) limit) :=
  ⟨State.ofSource_at Meter.index_lawful _ limit, State.ofSource_at Meter.index_lawful _ limit, rfl,
    rfl⟩

namespace Grammar

variable {S : Seam}

/-- The second run goes on behind the semicolon with the same entries up to their places, unless the
text in front ends in a comment. -/
def FileApart (S : Seam) (a b : List (Entry (Span Nat))) (_ t : State Nat) : Prop :=
  (∃ c x, a = .comment c :: x) ∨
    ∃ x t₀, (b, t) = repeating (mapStep value none) x t₀ ∧
      a.map (Entry.mapMarks unplaced) = x.map (Entry.mapMarks unplaced) ∧
      t₀.At S.second (';' :: S.first.text.reverse) [] ∧ t₀.problems = []

/-- Where the line is over, the second run reads the semicolon. -/
theorem mapStep_semicolon {F : Frame Nat} {v : List Char} (entries : List (Entry (Span Nat))) :
    Ensures (State.Rests F (';' :: v)) (mapStep value none entries)
      (Arrives F v (· = .again entries)) := by
  rintro s ⟨q, b, hb, hs⟩
  have hread : Ahead F q [] (b ++ ';' :: v) (mapStep value none entries)
      (Arrives F v (· = .again entries)) :=
    .readVisible (fun x hx => (hb x hx).1) (by decide) (.yes rfl (.done rfl))
  exact hread s hs

/-- Where nothing visible is left, the file ends. -/
theorem repeating_mapStep_spent (entries : List (Entry (Span Nat))) :
    Ensures S.pairing.Spent (repeating (mapStep value none) entries) fun x _ => x = entries :=
  .repeating_once (.spent fun _ hblank => .readVisibleBlank hblank fun _ _ _ _ =>
    ⟨entries, rfl, rfl⟩)

/-- A state in front of which `v` is all that is left of a text has consumed the rest. -/
theorem past_of_stands {F : Frame Nat} {p u v : List Char} {s : State Nat}
    (htext : F.text = u ++ ';' :: v) (h : s.Stands F p [] v) : p = ';' :: u.reverse := by
  have hboth : p.reverse ++ v = (u ++ [';']) ++ v := by
    have h := h.text
    simp only [List.reverse_nil, List.append_nil] at h
    rw [h, htext]
    simp
  have hpast := congrArg List.reverse (List.append_cancel_right hboth)
  simpa using hpast

/-- **Up to the semicolon**: the runs read the same entries, unless there is nothing more to
compare. -/
theorem fileEntries_apart (hgroup : S.first.inGroup = false) (p : List Char) :
    Abreast S (S.Beside p []) (repeating (mapStep value none) []) (FileApart S) := by
  have hvalue := value_abreast (S := S) hgroup
  refine repeating_abreast (I := EntriesWithin S.first p.length)
    (J := EntriesWithin S.second p.length) (Nat.le_refl _) (Nat.le_refl _)
    (fun _ _ h => mapStep_reads hgroup hvalue.first_reads _ h)
    (fun _ _ h => mapStep_reads (S.inGroup.trans hgroup) hvalue.second_reads _ h)
    (fun entries q _ _ => mapStep_abreast hgroup hvalue none entries q) ?_
  rintro a b s t (happart | ⟨-, x, rfl, rfl, -, ht, -, hclean⟩)
  · -- the first run is at its end and the second in front of the semicolon: one more step reads it
    refine .apart ?_
    obtain ⟨⟨x, rfl⟩, hspent⟩ := happart.spent
    have hends : (proceed (mapStep value none) (.again x) s).1 = x :=
      repeating_mapStep_spent x s hspent
    rcases happart with ⟨_, y, heq, rfl, hsame, -, hrests⟩ | ⟨⟨c, y, heq⟩, -⟩
    · obtain rfl := Next.again.inj heq
      obtain ⟨hagain, q, ht⟩ := mapStep_semicolon y t hrests
      obtain rfl := past_of_stands S.text ht
      refine .inr ⟨y, (mapStep value none y t).2, ?_, hends.symm ▸ hsame, ht.stands, ht.problems⟩
      obtain ⟨q, b, -, hstart⟩ := hrests
      have hlength := congrArg List.length (hstart.text.trans S.text)
      refine repeating_again hagain (hstart.stands.left_lt ht.stands ?_)
      simp at hlength ⊢
      omega
    · obtain rfl := Next.again.inj heq
      exact .inl ⟨c, y, hends⟩
  · exact .apart (.inr ⟨x, t, rfl, rfl, ht, hclean⟩)

/-- The second run does not stop in front of the semicolon. -/
theorem repeating_not_beside (hgroup : S.first.inGroup = false) {p q : List Char} {s t : State Nat}
    (ht : t.At S.second p []) (hs : s.At S.first q []) :
    ¬(repeating (mapStep value none) [] t).2.At S.second q [] := by
  intro hq
  have hfinished : (repeating (mapStep value none) [] t).2.Finished S.second :=
    repeating_stops (I := EntriesWithin S.second p.length)
      (fun _ _ => mapStep_reads (S.inGroup.trans hgroup)
        (value_reads (S.inGroup.trans hgroup)) none)
      (fun entries q => mapStep_finishes value entries q) (Nat.le_refl _) t ht
  obtain rfl : S.second.text.reverse = q :=
    hfinished.stands.reader.past.symm.trans hq.reader.past
  have hlength := hs.reader.length_le
  rw [S.text] at hlength
  simp at hlength
  omega

end Grammar

/-! ## Behind the semicolon -/

theorem newline_nil : ∀ c ∈ ([] : List Char).head?, c = '\n' := by simp

/-- A run over the text `b`, and the run over `a` and a semicolon and `b`. -/
def Pairing.past (limit : Nat) (a b : List Char) : Pairing Nat where
  first := .ofSource .index Meter.index_lawful (deliveries b) limit
  second := .ofSource .index Meter.index_lawful (deliveries (a ++ ';' :: b)) limit
  base := ';' :: a.reverse
  tail := []
  shift := 0
  voids _ := True
  extra := []
  meter := Frame.ofFile_meter b limit
  text := by simp [Frame.ofSource, delivered_deliveries]
  newline := newline_nil
  voids_of_tail _ _ := trivial
  blocks := .inl rfl
  depth := rfl
  inGroup := rfl

theorem Pairing.past_limits (limit : Nat) (a b : List Char) : (Pairing.past limit a b).Limits :=
  ⟨Nat.le_refl _, .inl rfl⟩

theorem Twin.past {limit : Nat} {a b : List Char} {t : State Nat}
    (ht : t.At (Pairing.past limit a b).second (';' :: a.reverse) [])
    (hproblems : t.problems = []) :
    Twin (.past limit a b) [] [] (.ofSource .index (deliveries b) limit) t where
  first := State.ofSource_at Meter.index_lawful _ limit
  second := ht
  problems := hproblems
  onsets := by simp [State.ofSource]
  clean h := absurd rfl h
  counts := ⟨fun ⟨_, h⟩ => absurd trivial h, fun h => absurd rfl h⟩

namespace Grammar

/-- **Behind the semicolon**: what is read there is what is read of the text that follows, if
nothing is wrong with that. -/
theorem repeating_past {a b : List Char} {limit : Nat}
    (hclean : (fileEntries .index (deliveries b) limit).2.problems = [])
    (entries : List (Entry (Span Nat))) {t : State Nat}
    (ht : t.At (Pairing.past limit a b).second (';' :: a.reverse) [])
    (hproblems : t.problems = []) :
    let run := repeating (mapStep value none) entries t
    run.1 = mapEntries (.past limit a b) entries (fileEntries .index (deliveries b) limit).1 ∧
      run.2.problems = [] := by
  have hboth := repeating_alike_never (K := .past limit a b) (g := []) (p := [])
    (f := mapEntries (.past limit a b) entries)
    (I := EntriesWithin (Pairing.past limit a b).first 0) (Nat.le_refl 0)
    (fun _ _ h => mapStep_reads rfl (value_reads rfl) none h)
    (fun x q _ => .of_tail rfl (mapStep_alike rfl
      (value_twins rfl (Pairing.past_limits limit a b)) (fun h => absurd rfl h) x q)) _ _
    (Twin.past ht hproblems)
  rcases hboth with (⟨x, hx, -⟩ | ⟨h, -⟩) | ⟨hentries, q, htwin⟩
  · have hnone : x ∈ (fileEntries .index (deliveries b) limit).2.problems := hx
    rw [hclean] at hnone
    cases hnone
  · exact absurd rfl h
  · refine ⟨hentries, htwin.problems.trans ?_⟩
    have hfirst : (repeating (mapStep value none) []
        (State.ofSource .index (deliveries b) limit)).2.problems = [] := hclean
    rw [hfirst]
    rfl

/-- What is read of two texts with a semicolon between them, where nothing is wrong with either. -/
theorem fileEntries_semicolon (a b : List Char) (limit : Nat)
    (hfront : (fileEntries .index (deliveries a) limit).2.problems = [])
    (hbehind : (fileEntries .index (deliveries b) limit).2.problems = [])
    (hcomment : ∀ c rest, (fileEntries .index (deliveries a) limit).1 ≠ .comment c :: rest) :
    let whole := fileEntries .index (deliveries (a ++ ';' :: b)) limit
    (∃ x ∈ whole.2.problems, (Seam.ofTexts a b limit).Slip x.cause) ∨
      whole.2.problems = [] ∧ whole.1.map (Entry.mapMarks unplaced) =
        (fileEntries .index (deliveries b) limit).1.map (Entry.mapMarks unplaced) ++
          (fileEntries .index (deliveries a) limit).1.map (Entry.mapMarks unplaced) := by
  intro whole
  have hbeside := Seam.Beside.ofTexts a b limit
  have hboth : Judged (Seam.ofTexts a b limit) (FileApart _)
      (fileEntries .index (deliveries a) limit).1 whole.1
      (fileEntries .index (deliveries a) limit).2 whole.2 :=
    fileEntries_apart (S := .ofTexts a b limit) rfl [] _ _ hbeside
  rcases hboth with (hwrong | hslip) | ⟨-, q, hstill⟩ | ⟨c, rest, hlast⟩ |
      ⟨x, t₀, hrun, hsame, ht₀, hclean⟩
  · exact absurd hfront hwrong
  · exact .inl hslip
  · -- the first run has read its whole text, so the second no longer stands beside it
    exact absurd hstill.second (repeating_not_beside rfl hbeside.second hstill.first)
  · exact absurd hlast (hcomment c rest)
  · rw [Seam.ofTexts_first] at ht₀
    obtain ⟨hentries, hproblems⟩ := repeating_past hbehind x ht₀ hclean
    rw [← hrun] at hentries hproblems
    refine .inr ⟨hproblems, ?_⟩
    have hplaced : ∀ e : Entry (Span Nat),
        (e.mapMarks (Span.map (Pairing.past limit a b).place)).mapMarks unplaced =
          e.mapMarks unplaced := fun e => Entry.mapMarks_mapMarks _ _ e
    rw [hentries, mapEntries, List.map_append, List.map_map, hsame]
    exact congrArg (· ++ _) (List.map_congr_left fun e _ => hplaced e)

end Grammar

end Diagram
