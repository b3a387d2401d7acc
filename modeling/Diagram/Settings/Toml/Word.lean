import Diagram.Number.Double
import Diagram.Number.Literal
import Diagram.Settings.Toml.Table

/-!
TOML values without quotes or brackets: booleans, numbers, dates and times of day.
-/
namespace Diagram.Toml

/-! ## Numbers -/

/-- Digits with single underscores between them, without those. -/
def digits? (isDigit : Char → Bool) (cs : List Char) : Option (List Char) :=
  let parts := fields '_' cs
  if parts.all fun part => !part.isEmpty && part.all isDigit then some parts.flatten else none

/-- Decimal digits without a zero in front. -/
def decimalDigits? (cs : List Char) : Option (List Char) := do
  let digits ← digits? Char.isDigit cs
  if digits.length > 1 && digits.head? = some '0' then none else some digits

/-- An integer without a sign that is written in a radix. -/
def radixInteger? (radix : Nat) (cs : List Char) : Option Int := do
  let digits ← digits? (fun c => (digitValue? radix c).isSome) cs
  return (← naturalValue? radix digits : Nat)

def integer? : List Char → Option Int
  | '0' :: 'x' :: cs => radixInteger? 16 cs
  | '0' :: 'o' :: cs => radixInteger? 8 cs
  | '0' :: 'b' :: cs => radixInteger? 2 cs
  | cs => do
    let (negative, digits) := cutSign cs
    let n ← naturalValue? 10 (← decimalDigits? digits)
    pure (if negative then -(n : Int) else n)

/-- The exponent of a float, which is zero if there is none. -/
def exponent? : Option (List Char) → Option Int
  | none => some 0
  | some cs => do
    let (negative, digits) := cutSign cs
    let n ← naturalValue? 10 (← digits? Char.isDigit digits)
    pure (if negative then -(n : Int) else n)

/-- The digits of the fraction of a float, of which there are none if it has no point. -/
def fraction? : Option (List Char) → Option (List Char)
  | none => some []
  | some cs => digits? Char.isDigit cs

/-- A number with a fraction or an exponent, or one of the special values; tells whether a double
can hold it. -/
def float? (cs : List Char) : Option Bool :=
  let (_, unsigned) := cutSign cs
  if unsigned = ['i', 'n', 'f'] || unsigned = ['n', 'a', 'n'] then some true
  else
    let (mantissa, exponent) := cutExponent unsigned
    let (whole, fraction) := match cutFirst '.' mantissa with
      | some (whole, fraction) => (whole, some fraction)
      | none => (mantissa, none)
    if fraction.isNone && exponent.isNone then none
    else do
      let whole ← decimalDigits? whole
      let fraction ← fraction? fraction
      let exponent ← exponent? exponent
      pure (!exceedsDouble (← naturalValue? 10 (whole ++ fraction)) (exponent - fraction.length))

/-! ## Dates and times -/

/-- The value of two digits. -/
def twoDigits? (cs : List Char) : Option Nat :=
  if cs.length = 2 then naturalValue? 10 cs else none

/-- Two digits with a value up to a bound. -/
def isField (most : Nat) (cs : List Char) : Bool :=
  (twoDigits? cs).any (· ≤ most)

def isLeapYear (year : Nat) : Bool :=
  year % 4 = 0 && (year % 100 != 0 || year % 400 = 0)

/-- The days of a month, counted from one. -/
def daysOf (year month : Nat) : Nat :=
  if month = 2 then if isLeapYear year then 29 else 28
  else if month ∈ [4, 6, 9, 11] then 30
  else if 1 ≤ month && month ≤ 12 then 31
  else 0

def isDate (cs : List Char) : Bool :=
  match fields '-' cs with
  | [year, month, day] =>
    year.length = 4 &&
      match naturalValue? 10 year, twoDigits? month, twoDigits? day with
      | some year, some month, some day => 1 ≤ day && day ≤ daysOf year month
      | _, _, _ => false
  | _ => false

/-- A difference from universal time. -/
def isOffset : List Char → Bool
  | ['Z'] | ['z'] => true
  | sign :: rest =>
    (sign = '+' || sign = '-') &&
      match fields ':' rest with
      | [hour, minute] => isField 23 hour && isField 59 minute
      | _ => false
  | [] => false

/-- Hour, minute, and perhaps a second, which may have a fraction. -/
def isClock (cs : List Char) : Bool :=
  match fields ':' cs with
  | [hour, minute] => isField 23 hour && isField 59 minute
  | [hour, minute, second] =>
    isField 23 hour && isField 59 minute &&
      match cutFirst '.' second with
      | none => isField 60 second
      | some (second, fraction) =>
        isField 60 second && !fraction.isEmpty && fraction.all Char.isDigit
  | _ => false

/-- A time of day behind a date, with or without an offset. -/
def isDatedTime (cs : List Char) : Bool :=
  let isPart := fun c : Char => c.isDigit || c = ':' || c = '.'
  let offset := cs.dropWhile isPart
  isClock (cs.takeWhile isPart) && (offset.isEmpty || isOffset offset)

def isMoment (cs : List Char) : Bool :=
  isDate cs || isClock cs ||
    (isDate (cs.take 10) && cs.getD 10 'x' ∈ ['T', 't', ' '] && isDatedTime (cs.drop 11))

/-! ## Words -/

/-- The value of a word. -/
def word? (cs : List Char) : Option Value :=
  if cs = ['t', 'r', 'u', 'e'] then some (.boolean true)
  else if cs = ['f', 'a', 'l', 's', 'e'] then some (.boolean false)
  else if isMoment cs then some .moment
  else match integer? cs with
    | some n => some (.integer n)
    | none => (float? cs).map .float

def isWordChar (c : Char) : Bool :=
  c.isAlphanum || c ∈ ['_', '-', '+', '.', ':']

/-- The characters of a word, and what follows it. A date may have a time behind one blank. -/
def wordChars (cs : List Char) : List Char × List Char :=
  let word := cs.takeWhile isWordChar
  match cs.dropWhile isWordChar with
  | ' ' :: d :: rest =>
    if isDate word && d.isDigit then
      (word ++ ' ' :: (d :: rest).takeWhile isWordChar, (d :: rest).dropWhile isWordChar)
    else (word, ' ' :: d :: rest)
  | rest => (word, rest)

end Diagram.Toml
