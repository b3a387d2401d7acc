import Diagram.Proofs.Quoting.Number
import Diagram.Proofs.Quoting.Text
import Diagram.Tree.Equivalence

/-!
Names made of letters, digits and underscores. Without quotes, such a name ends in front of a
connection, at the end of the text, and inside an edge group in front of the parenthesis that closes
it. The blank between a name and a connection is read with the name, and trimmed off it.
-/
namespace Diagram

/-- A letter, a digit or an underscore. -/
def isWordCharacter (c : Char) : Bool :=
  c.isAlphanum || c = '_'

/-- A name of ASCII letters, digits and underscores. -/
def IsWord (s : String) : Prop :=
  s.toList ≠ [] ∧ ∀ c ∈ s.toList, isWordCharacter c = true

instance (s : String) : Decidable (IsWord s) :=
  decidable_of_iff (s.toList ≠ [] ∧ s.toList.all isWordCharacter = true) (by simp [IsWord])

theorem IsWord.exists_cons {s : String} (hs : IsWord s) :
    ∃ c w, s.toList = c :: w ∧ isWordCharacter c = true := by
  obtain ⟨c, w, hw⟩ := List.exists_cons_of_ne_nil hs.1
  exact ⟨c, w, hw, hs.2 c (by simp [hw])⟩

theorem ne_of_wordCharacter {c x : Char} (hc : isWordCharacter c = true)
    (hx : isWordCharacter x = false) : c ≠ x := by
  rintro rfl
  rw [hc] at hx
  cases hx

theorem wordCharacter_visible {c : Char} (hc : isWordCharacter c = true) : isBlank c = false := by
  simp only [isWordCharacter, Bool.or_eq_true, decide_eq_true_eq] at hc
  rcases hc with hc | rfl
  · exact isNumeric_visible (by simp [isNumeric, hc])
  · rfl

theorem wordCharacter_not_special {c : Char} (hc : isWordCharacter c = true) : c ∉ keySpecials := by
  have hspecials : keySpecials.all (!isWordCharacter ·) = true := by decide
  intro h
  simpa [hc] using List.all_eq_true.mp hspecials c h

/-- The path with one segment, which is written as it is. -/
def wordPath (s : String) : KeyPath Unit :=
  ⟨(), [.unquoted () [.literal s s]]⟩

namespace Grammar

variable {π : Type} {F : Frame π} {p u b : List Char}

/-- A name ends in front of `u`: there a connection starts, or the source ends, or the edge group
is closed and has an index. -/
inductive EndsWord (F : Frame π) : List Char → Prop
  | source : EndsWord F []
  | arrow {u : List Char} : EndsWord F ('<' :: u)
  | connector {c x : Char} {u : List Char} (hc : c = '-' ∨ c = '*') (hx : startsEdge c x = true) :
      EndsWord F (c :: x :: u)
  | group {u : List Char} (h : F.inGroup = true) : EndsWord F (')' :: '[' :: u)

theorem EndsWord.followsPath (h : EndsWord F u) : FollowsPath u := by
  cases h with
  | source => exact .inl (by simp [EndsLine])
  | arrow => exact .inr ⟨'<', _, rfl, rfl, by decide⟩
  | connector hc _ =>
    rcases hc with rfl | rfl
    · exact .inr ⟨'-', _, rfl, rfl, by decide⟩
    · exact .inr ⟨'*', _, rfl, rfl, by decide⟩
  | group _ => exact .inr ⟨')', _, rfl, rfl, by decide⟩

theorem unquotedCharacter_endsWord {g : Unquoted π} (hu : EndsWord F u) :
    Ahead F p [] u (unquotedCharacter .key g)
      (Arrives F u fun next => ∃ g', next = .stop g' ∧ Extends [] g.text g'.text) := by
  have hsame : Extends [] g.text g.text := ⟨rfl, rfl, rfl⟩
  cases hu with
  | source => exact .peekEnd (.done ⟨g, rfl, hsame⟩)
  | arrow =>
    exact .peek (.inGroup (.no (by simp) (.yes rfl (.retreat (.done ⟨g, rfl, hsame⟩)))))
  | connector hc hx =>
    have hclosing : ∀ c : Char, c = '-' ∨ c = '*' → ¬(F.inGroup && c = ')') = true := by
      rintro c (rfl | rfl) <;> simp
    have hends : ∀ c : Char, c = '-' ∨ c = '*' → ¬endsUnquoted (.key : Role π) c = true := by
      rintro c (rfl | rfl) <;> simp [endsUnquoted]
    refine .peek (.inGroup (.no (hclosing _ hc) (.no (hends _ hc) (.yes ?_ ?_))))
    · simpa [Role.isKey] using hc
    · exact .peek (.retreat (.yes hx (.done ⟨g, rfl, hsame⟩)))
  | group h =>
    refine .peek (.inGroup (.yes (by simp [h]) (.peekOnLine (b := []) (by simp) (by decide) ?_)))
    exact .retreat (.yes rfl (.done ⟨g, rfl, hsame⟩))

theorem unquotedCharacters_word {cs : List Char} {g : Unquoted π}
    (hcs : ∀ c ∈ cs, c ∉ keySpecials) (hu : EndsWord F u) :
    Ahead F p [] (cs ++ u) (repeating (unquotedCharacter .key) g)
      (Arrives F u fun g' => Extends cs g.text g'.text) := by
  induction cs generalizing g p with
  | nil => exact .stop (unquotedCharacter_endsWord hu)
  | cons c cs ih =>
    have hc := hcs c List.mem_cons_self
    have hopen : c = ')' → F.inGroup = false := by
      rintro rfl
      exact absurd (by decide) hc
    refine .again (unquotedCharacter_taken hopen (keySpecials_taken hc _)) (by simp)
      fun g₁ q h₁ => ?_
    exact .mono (ih fun x hx => hcs x (List.mem_cons_of_mem c hx)) fun g' h => h₁.append h

/-- What may stand next to a name: nothing or a blank. -/
def IsGap (b : List Char) : Prop :=
  b = [] ∨ b = [' ']

theorem IsGap.lineBlanks (hb : IsGap b) : LineBlanks b := by
  rcases hb with rfl | rfl
  · exact .nil
  · exact List.forall_mem_singleton.mpr (by decide)

theorem IsGap.not_special (hb : IsGap b) : ∀ x ∈ b, x ∉ keySpecials := by
  rcases hb with rfl | rfl <;> simp [keySpecials]

/-- A name is read whole, with the blank behind it. -/
theorem unquotedText_word {s : String} (hs : IsWord s) (hb : IsGap b) (hu : EndsWord F u) :
    Ahead F p [] (s.toList ++ b ++ u) (unquotedText .key)
      (Arrives F u fun r => ∃ t, r = some t ∧ IsUnquoted s t) := by
  obtain ⟨hne, hword⟩ := hs
  have hspecial : ∀ c ∈ s.toList ++ b, c ∉ keySpecials := by
    intro c hc
    rcases List.mem_append.mp hc with hc | hc
    · exact wordCharacter_not_special (hword c hc)
    · exact hb.not_special c hc
  refine unquotedText_extends hne ?_ hb.lineBlanks.blank
    fun g => unquotedCharacters_word hspecial hu
  exact fun c hc => wordCharacter_visible (hword c (List.mem_of_getLast? hc))

/-- A name is a path of its own. -/
theorem path_word {s : String} {a : List Char} (ha : IsGap a) (hs : IsWord s) (hb : IsGap b)
    (hu : EndsWord F u) :
    Ahead F p [] (a ++ (s.toList ++ b ++ u)) path
      (Arrives F u fun r => ∃ k, r = some k ∧ k.mapMarks (fun _ => ()) = wordPath s) := by
  have hread : ∀ p, Ahead F p [] (s.toList ++ b ++ u) (unquotedText .key)
      (Arrives F u fun r => ∃ t, r = some t ∧ IsUnquoted s t) := fun _ => unquotedText_word hs hb hu
  obtain ⟨c, cs, hcs, hc⟩ := hs.exists_cons
  have hvisible := wordCharacter_visible hc
  simp only [hcs, List.cons_append] at hread ⊢
  have hsegment : Ahead F p [] (a ++ c :: (cs ++ b ++ u)) (pathSegment [])
      (Arrives F u fun next => ∃ segments, next = .stop segments ∧
        ∃ t, IsUnquoted s t ∧ segments = [t]) := by
    have hnot : c ∉ ['"', '\'', '|'] := by
      simp [ne_of_wordCharacter hc (x := '"') (by decide),
        ne_of_wordCharacter hc (x := '\'') (by decide),
        ne_of_wordCharacter hc (x := '|') (by decide)]
    refine .peekOnLine ha.lineBlanks hvisible
      (.retreat (.no (ne_of_wordCharacter hc (by decide)) ?_))
    have htext := text_unquoted (p := p) ha.lineBlanks hvisible hnot hread
    refine .call (v := u) (by simpa using htext) fun r q h => ?_
    obtain ⟨t, rfl, ht⟩ := h
    refine .mono (pathPoint_follows hu.followsPath) fun next h => ?_
    obtain ⟨segments, rfl, rfl⟩ := h
    exact ⟨_, rfl, t, ht, rfl⟩
  refine .here (.call (.stop hsegment) fun segments q h => ?_)
  obtain ⟨t, ⟨range, rfl⟩, rfl⟩ := h
  exact .no (by simp) (.here (.done ⟨_, rfl, rfl⟩))

end Grammar

end Diagram
