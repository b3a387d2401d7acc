import Diagram.Proofs.Document.Basic
import Diagram.Tree.Quoting
import Mathlib.Tactic.SplitIfs

/-!
How a text is written in the form that `Text.ofString` chooses for it, and what is known of a text
that goes without quotes: no character of it has a meaning where it stands.
-/
namespace Diagram

variable {ρ : Type}

/-! ## Forms -/

/-- The forms that a text may be written in. -/
inductive Form where
  | unquoted
  | doubleQuoted
  | singleQuoted
  | block
  deriving DecidableEq, Repr

def Text.form : Text ρ → Form
  | .unquoted .. => .unquoted
  | .doubleQuoted .. => .doubleQuoted
  | .singleQuoted .. => .singleQuoted
  | .block .. => .block

namespace Document

/-- How a character is written between single quotes. -/
def doubled (c : Char) : List Char :=
  if c = '\'' then ['\'', '\''] else [c]

def singleQuoted (text : String) : List Char :=
  '\'' :: (text.toList.flatMap doubled ++ ['\''])

end Document

/-- How a text is written that holds no substitutions: unquoted as it is, between double quotes with
escapes, and between single quotes with these doubled. Blocks are left out. -/
def Text.written? (inKey : Bool) (t : Text ρ) : Option (List Char) :=
  match t with
  | .unquoted .. => some t.content.toList
  | .doubleQuoted .. => some (Document.quoted (!inKey) t.content)
  | .singleQuoted .. => some (Document.singleQuoted t.content)
  | .block .. => none

/-! ## The form that is chosen -/

/-- There are no blanks at the ends of what stays the same when it is trimmed. -/
theorem trim_eq_self {cs : List Char} (h : trim cs = cs) :
    (∀ c ∈ cs.head?, isBlank c = false) ∧ ∀ c ∈ cs.getLast?, isBlank c = false := by
  have hle : ∀ xs : List Char, (xs.dropWhile isBlank).length ≤ xs.length := fun xs =>
    (List.dropWhile_suffix isBlank).length_le
  have hvisible : ∀ xs : List Char, xs.dropWhile isBlank = xs →
      ∀ c ∈ xs.head?, isBlank c = false := by
    intro xs hxs c hc
    have hfirst := List.head?_dropWhile_not isBlank xs
    rw [hxs, hc] at hfirst
    simpa using hfirst
  -- nothing is lost at the start, and then nothing at the end
  have hstart : cs.dropWhile isBlank = cs := by
    refine (List.dropWhile_suffix isBlank).eq_of_length_le ?_
    have hlength := congrArg List.length h
    have hend := hle (cs.dropWhile isBlank).reverse
    simp only [trim, trimEnd, List.length_reverse] at hlength hend
    omega
  have hend : cs.reverse.dropWhile isBlank = cs.reverse := by
    rw [trim, trimEnd, hstart] at h
    exact List.reverse_eq_iff.mp h
  refine ⟨hvisible cs hstart, fun c hc => hvisible cs.reverse hend c ?_⟩
  rwa [List.head?_reverse]

/-- A text that `s` may be written as without quotes. -/
structure Bare (inKey : Bool) (s : String) : Prop where
  plain : needsQuotes inKey s.toList = false
  nonempty : s.toList ≠ []
  trimmed : trim s.toList = s.toList

/-- The form that is chosen for a text, and why. -/
inductive Chosen (inKey : Bool) (s : String) : Text ρ → Prop where
  | unquoted (mark : ρ) (h : Bare inKey s) : Chosen inKey s (.unquoted mark [.ofString s])
  | doubleQuoted (mark : ρ) : Chosen inKey s (.doubleQuoted mark [.ofString s])
  | singleQuoted (mark : ρ) (h : '\n' ∉ s.toList) : Chosen inKey s (.singleQuoted mark s)

theorem Text.ofString_chosen (inKey : Bool) (mark : ρ) (s : String) :
    Chosen inKey s (Text.ofString inKey mark s) := by
  simp only [Text.ofString]
  split_ifs with hquotes hdouble hblank
  · exact .doubleQuoted mark
  · exact .singleQuoted mark fun h => hdouble (.inr h)
  · exact .doubleQuoted mark
  · simp only [Bool.or_eq_true, List.isEmpty_iff, bne_iff_ne, not_or, Decidable.not_not] at hblank
    exact .unquoted mark ⟨by simpa using hquotes, hblank.1, hblank.2⟩

theorem Chosen.bare {inKey : Bool} {s : String} {chosen : Text ρ} (h : Chosen inKey s chosen)
    (hform : chosen.form = .unquoted) : Bare inKey s := by
  cases h with
  | unquoted mark hbare => exact hbare
  | doubleQuoted mark | singleQuoted mark _ => cases hform

/-- What needs no quotes is written without. -/
theorem Bare.form_ofString {inKey : Bool} {s : String} (h : Bare inKey s) (mark : ρ) :
    (Text.ofString inKey mark s).form = .unquoted := by
  unfold Text.ofString
  simp [h.plain, h.nonempty, h.trimmed, Text.form]

/-! ## The first character -/

/-- In a key without quotes, nothing is special but dashes and ampersands. -/
theorem keyNeedsQuotes_head {first : Bool} {c : Char} {cs : List Char}
    (h : keyNeedsQuotes first (c :: cs) = false) :
    (c ∉ keySpecials ∨ c = '-' ∧ (∃ x xs, cs = x :: xs ∧ x ≠ '-') ∨ c = '&' ∧ first = false) ∧
      keyNeedsQuotes false cs = false := by
  rw [keyNeedsQuotes] at h
  split_ifs at h with hexcept
  · refine ⟨.inr ?_, h⟩
    rcases (Bool.or_eq_true_iff.mp hexcept) with hdash | hampersand
    · obtain ⟨hc, hnext⟩ := Bool.and_eq_true_iff.mp hdash
      refine .inl ⟨by simpa using hc, ?_⟩
      cases cs with
      | nil => simp at hnext
      | cons x xs => exact ⟨x, xs, rfl, by simpa using hnext⟩
    · obtain ⟨hc, hfirst⟩ := Bool.and_eq_true_iff.mp hampersand
      exact .inr ⟨by simpa using hc, by simpa using hfirst⟩
  · obtain ⟨hc, hcs⟩ := Bool.or_eq_false_iff.mp h
    exact ⟨.inl (by simpa using hc), hcs⟩

/-- A text without quotes starts with a visible character that opens nothing. -/
theorem Bare.starts {inKey : Bool} {s : String} (h : Bare inKey s) :
    ∃ c cs, s.toList = c :: cs ∧ isBlank c = false ∧ c ∉ ['"', '\'', '|', '[', '{'] ∧
      (inKey = true → c ≠ '(') := by
  obtain ⟨c, cs, hcs⟩ := List.exists_cons_of_ne_nil h.nonempty
  have hplain := h.plain
  have hvisible := (trim_eq_self h.trimmed).1
  rw [hcs] at hplain hvisible
  refine ⟨c, cs, hcs, hvisible c rfl, ?_⟩
  cases inKey with
  | true =>
    rcases (keyNeedsQuotes_head hplain).1 with hc | ⟨rfl, -⟩ | ⟨rfl, -⟩
    · simp only [keySpecials, List.mem_cons, List.not_mem_nil, or_false, not_or] at hc
      simp [hc]
    · decide
    · decide
  | false =>
    have hc : c ∉ valueSpecials := by
      rintro hc
      simp [needsQuotes, valueNeedsQuotes, hc] at hplain
    simp only [valueSpecials, List.mem_cons, List.not_mem_nil, or_false, not_or] at hc
    simp [hc]

/-- So does what is written, with or without quotes; only quotes are opened. -/
theorem Chosen.starts {inKey : Bool} {s : String} {chosen : Text ρ} {written : List Char}
    (h : Chosen inKey s chosen) (hwritten : chosen.written? inKey = some written) :
    ∃ c cs, written = c :: cs ∧ isBlank c = false ∧ c ≠ '[' ∧ c ≠ '{' ∧
      (inKey = true → c ≠ '(') := by
  cases h with
  | unquoted mark hbare =>
    obtain rfl : s.toList = written := Option.some.inj hwritten
    obtain ⟨c, cs, hcs, hvisible, hc, hgroup⟩ := hbare.starts
    simp only [List.mem_cons, List.not_mem_nil, or_false, not_or] at hc
    exact ⟨c, cs, hcs, hvisible, hc.2.2.2.1, hc.2.2.2.2, hgroup⟩
  | doubleQuoted mark =>
    obtain rfl : Document.quoted (!inKey) s = written := Option.some.inj hwritten
    exact ⟨'"', _, rfl, by decide, by decide, by decide, fun _ => by decide⟩
  | singleQuoted mark hline =>
    obtain rfl : Document.singleQuoted s = written := Option.some.inj hwritten
    exact ⟨'\'', _, rfl, by decide, by decide, by decide, fun _ => by decide⟩

end Diagram
