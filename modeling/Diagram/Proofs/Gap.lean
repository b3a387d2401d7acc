import Diagram.Grammar.Text

/-!
Text that is read and stands for nothing but blanks. No text of the tree is made of it, so that a
key or a value is missing where there is nothing else.
-/
namespace Diagram

/-- Blanks, and escapes that stand for one. -/
inductive Gap : List Char → Prop
  | nil : Gap []
  | blank {c : Char} {cs : List Char} (hc : isBlank c = true) (h : Gap cs) : Gap (c :: cs)
  | escape {c : Char} {cs : List Char} (hc : isBlank (Grammar.escapeValue c) = true) (h : Gap cs) :
    Gap ('\\' :: c :: cs)

theorem Gap.append {cs ds : List Char} (h : Gap cs) (h' : Gap ds) : Gap (cs ++ ds) := by
  induction h with
  | nil => exact h'
  | blank hc _ ih => exact .blank hc ih
  | escape hc _ ih => exact .escape hc ih

theorem Gap.blanks {cs : List Char} (h : ∀ c ∈ cs, isBlank c = true) : Gap cs := by
  induction cs with
  | nil => exact .nil
  | cons c cs ih => exact .blank (h c (by simp)) (ih fun x hx => h x (by simp [hx]))

/-! ## Where a gap leads -/

theorem extract_append {text : List Char} {k i j : Nat} (hki : k ≤ i) (hij : i ≤ j) :
    text.extract k j = text.extract k i ++ text.extract i j := by
  obtain ⟨m, rfl⟩ := Nat.exists_eq_add_of_le hki
  obtain ⟨n, rfl⟩ := Nat.exists_eq_add_of_le hij
  have hlength : k + m + n - k = m + n := by omega
  simp only [List.extract_eq_take_drop, Nat.add_sub_cancel_left, hlength, List.take_add,
    List.drop_drop]

/-- From the index `k` to `i` there is a gap, which starts with an escape if there is anything. -/
structure GapTo (text : List Char) (k i : Nat) : Prop where
  le : k ≤ i
  slash : k < i → text[k]? = some '\\'
  gap : Gap (text.extract k i)

theorem GapTo.here (text : List Char) (k : Nat) : GapTo text k k :=
  ⟨Nat.le_refl k, fun h => absurd h (Nat.lt_irrefl k), by simpa using Gap.nil⟩

theorem GapTo.further {text : List Char} {k i j : Nat} (h : GapTo text k i) (hij : i ≤ j)
    (hgap : Gap (text.extract i j)) (hslash : i = k → text[k]? = some '\\') : GapTo text k j := by
  refine ⟨Nat.le_trans h.le hij, fun _ => ?_, ?_⟩
  · rcases Nat.eq_or_lt_of_le h.le with hki | hki
    · exact hslash hki.symm
    · exact h.slash hki
  · rw [extract_append h.le hij]
    exact h.gap.append hgap

/-- Characters that end a text, besides the end of its line. -/
def textEnds : List Char := [';', '#', '{', '}', '[', ']']

/-- The text stops at the index `i`: there is nothing there, a blank,
or a character that ends it. -/
def StopsAt (text : List Char) (i : Nat) : Prop :=
  ∀ c ∈ text[i]?, isBlank c = true ∨ c ∈ textEnds

/-- A value is missing at the index `k`, and in search of it the text up to `i` has been read. -/
inductive Missed (text : List Char) (k : Nat) : Nat → Prop
  /-- There is no more than a gap. -/
  | gap {i : Nat} (h : GapTo text k i) (hstop : StopsAt text i) : Missed text k i
  /-- The last escape is cut off by the end of the text. -/
  | escape {i : Nat} (h : GapTo text k i) (hslash : text.drop i = ['\\']) : Missed text k (i + 1)

/-- At the index `k` a backslash starts a value that is missing, and in search of it the text up to
`i` has been read: a gap, and perhaps the backslash that the text ends with. What stands at `i` ends
the text or is a blank. -/
structure BehindGap (text : List Char) (k i : Nat) : Prop where
  slash : text[k]? = some '\\'
  lt : k < i
  le : i ≤ text.length
  gap : Gap (text.extract k i) ∨
    i = text.length ∧ ∃ gap, Gap gap ∧ text.extract k i = gap ++ ['\\']
  stop : StopsAt text i

/-- What is skipped for an item of a sequence that is missing: the character that it should start
with, or what stands behind a gap that it starts with. -/
inductive Skips (text : List Char) : Char → Nat → Prop
  | itself {i : Nat} (h : text[i]? = some '}') : Skips text '}' i
  | behindGap {k i : Nat} (h : BehindGap text k i) : Skips text '\\' i

/-- What is skipped for an item that starts with `c`, which starts no item for its own sake. -/
theorem Missed.skips {text : List Char} {k i : Nat} {c : Char} (h : Missed text k i)
    (hi : i ≤ text.length) (hc : text[k]? = some c) (hvisible : isBlank c = false)
    (hends : c ∈ textEnds → c = '}') : Skips text c i := by
  cases h with
    -- a gap of no characters ends at `c` itself, any other starts with its own backslash
  | gap h hstop =>
    rcases Nat.eq_or_lt_of_le h.le with rfl | hki
    · rcases hstop c hc with hblank | hmem
      · rw [hvisible] at hblank
        cases hblank
      · obtain rfl := hends hmem
        exact .itself hc
    · obtain rfl : '\\' = c := Option.some.inj ((h.slash hki).symm.trans hc)
      exact .behindGap ⟨hc, hki, hi, .inl h.gap, hstop⟩
  | @escape j h hslash =>
    have hj : text[j]? = some '\\' := by rw [← List.head?_drop, hslash, List.head?_cons]
    -- the backslash is the last character of the text: it escapes nothing and belongs to the gap
    have hlength : text.length = j + 1 := by
      have := congrArg List.length hslash
      simp only [List.length_drop, List.length_singleton] at this
      omega
    obtain rfl : '\\' = c := by
      rcases Nat.eq_or_lt_of_le h.le with rfl | hki
      · exact Option.some.inj (hj.symm.trans hc)
      · exact Option.some.inj ((h.slash hki).symm.trans hc)
    have hlast : text.extract j (j + 1) = ['\\'] := by
      rw [List.extract_eq_take_drop, hslash]
      simp
    refine .behindGap ⟨hc, Nat.lt_succ_of_le h.le, hi, .inr ⟨hlength.symm, _, h.gap, ?_⟩, ?_⟩
    · rw [extract_append h.le (Nat.le_succ j), hlast]
    · intro x hx
      rw [← hlength, List.getElem?_eq_none (Nat.le_refl _)] at hx
      cases hx

namespace Grammar

variable {π : Type}

/-- What is gathered stands for nothing but blanks. -/
def Gathered.Blank (g : Gathered π) : Prop :=
  g.pieces = [] ∧ ∀ c ∈ g.value, isBlank c = true

theorem Gathered.blank_of_finish {g : Gathered π} (h : g.trimEnd.finish = []) : g.Blank := by
  have hpieces : g.trimEnd.flush.pieces = [] := List.reverse_eq_nil_iff.mp h
  rw [flush] at hpieces
  split at hpieces
  · next hvalue =>
    refine ⟨hpieces, fun c hc => ?_⟩
    have htrimmed : g.value.dropWhile isBlank = [] := List.isEmpty_iff.mp hvalue
    have hall := List.any_dropWhile (l := g.value) (p := isBlank)
    rw [htrimmed, List.any_nil] at hall
    exact List.all_eq_true.mp (by simpa using hall.symm) c hc
  · cases hpieces

theorem Gathered.Blank.of_push {g : Gathered π} {c : Char} (h : (g.push c).Blank) :
    isBlank c = true ∧ g.Blank :=
  ⟨h.2 c List.mem_cons_self, h.1, fun x hx => h.2 x (List.mem_cons_of_mem _ hx)⟩

theorem Gathered.Blank.of_pushEscape {g : Gathered π} {c : Char} (h : (g.pushEscape c).Blank) :
    isBlank (escapeValue c) = true ∧ g.Blank :=
  ⟨h.2 _ List.mem_cons_self, h.1, fun x hx => h.2 x (List.mem_cons_of_mem _ hx)⟩

theorem Gathered.not_blank_pushSubstitution (g : Gathered π) (x : Substitution (Span π)) :
    ¬(g.pushSubstitution x).Blank :=
  fun h => List.cons_ne_nil _ _ h.1

end Grammar

end Diagram
