import Diagram.Chars.Blank
import Diagram.Range
import Diagram.Tree.Basic

/-!
Choosing a written form for a text: unquoted where that reads back as the same text, and otherwise
in double or single quotes.
-/
namespace Diagram

/-- Characters that cannot stand in an unquoted key. -/
def keySpecials : List Char :=
  ['#', ';', '\n', '\\', '{', '}', '[', ']', '\'', '"', '|', ':', '.', '-', '<', '>', '*', '&',
    '(', ')']

/-- Characters that cannot stand in an unquoted value. -/
def valueSpecials : List Char :=
  ['#', ';', '\n', '\\', '{', '}', '[', ']', '\'', '"', '|', '$']

/-- A key that needs quotes. A dash may stand in front of another character than a dash, and an
ampersand behind the first character. -/
def keyNeedsQuotes : (first : Bool) → List Char → Bool
  | _, [] => false
  | first, c :: cs =>
    if c = '-' && cs.head?.any (· != '-') || c = '&' && !first then keyNeedsQuotes false cs
    else c ∈ keySpecials || keyNeedsQuotes false cs

/-- A value that needs quotes. -/
def valueNeedsQuotes (cs : List Char) : Bool :=
  cs.map Char.toLower == ['n', 'u', 'l', 'l'] || cs.any (· ∈ valueSpecials)

/-- A text that needs quotes in a key or in a value. -/
def needsQuotes (inKey : Bool) (cs : List Char) : Bool :=
  if inKey then keyNeedsQuotes true cs else valueNeedsQuotes cs

/-- The piece that stands for a text, whose written form is left open. -/
def Piece.ofString {ρ : Type} (s : String) : Piece ρ := .literal s ""

/-- The written form of a text with the fewest quotes, at a given mark. -/
def Text.ofString {ρ : Type} (inKey : Bool) (mark : ρ) (s : String) : Text ρ :=
  let cs := s.toList
  if needsQuotes inKey cs then
    if '"' ∉ cs ∧ ¬ (!inKey ∧ '$' ∈ cs) ∨ '\n' ∈ cs then .doubleQuoted mark [.ofString s]
    else .singleQuoted mark s
  else if cs.isEmpty || trim cs != cs then .doubleQuoted mark [.ofString s]
  else .unquoted mark [.ofString s]

/-- Another text in the same written form. -/
def Text.setContent {ρ : Type} (s : String) : Text ρ → Text ρ
  | .unquoted range _ => .unquoted range [.ofString s]
  | .doubleQuoted range _ => .doubleQuoted range [.ofString s]
  | .singleQuoted range _ => .singleQuoted range s
  | .block range quote tag _ => .block range quote tag s

@[simp] theorem Text.content_setContent {ρ : Type} (s : String) (t : Text ρ) :
    (t.setContent s).content = s := by
  cases t <;> rfl

end Diagram
