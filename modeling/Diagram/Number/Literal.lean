import Diagram.Chars.Lines

/-!
Number literals and their exact values. A literal is a decimal with an optional sign, fraction and
exponent (`-1.5e3`), the quotient of two decimals (`1/3`), or an integer in another radix (`0x1f`,
`0o17`, `0b101`). `numberValue?` gives the value as a rational number, without rounding.
-/
namespace Diagram

/-- Literals with a larger exponent are not taken for numbers. -/
def maxExponent : Nat := 10000

/-- A sign and what follows it; no sign is a plus sign. -/
def cutSign : List Char → Bool × List Char
  | '-' :: cs => (true, cs)
  | '+' :: cs => (false, cs)
  | cs => (false, cs)

/-- The value of a digit in a radix up to sixteen; letters count in either case. -/
def digitValue? (radix : Nat) (c : Char) : Option Nat :=
  let n :=
    if c.isDigit then c.toNat - '0'.toNat
    else if 'a' ≤ c && c ≤ 'f' then c.toNat - 'a'.toNat + 10
    else if 'A' ≤ c && c ≤ 'F' then c.toNat - 'A'.toNat + 10
    else 16
  if n < radix then some n else none

/-- The value of digits in a radix, most significant first; there may be none. -/
def digitsValue? (radix : Nat) (cs : List Char) : Option Nat :=
  cs.foldlM (fun n c => (digitValue? radix c).map (radix * n + ·)) 0

/-- The value of one or more digits. -/
def naturalValue? (radix : Nat) : List Char → Option Nat
  | [] => none
  | c :: cs => digitsValue? radix (c :: cs)

/-- `m` times ten to the power `e`. -/
def scaled (m : Nat) (e : Int) : Rat :=
  if 0 ≤ e then ((m * Nat.pow 10 e.toNat : Nat) : Rat) else mkRat m (Nat.pow 10 (-e).toNat)

/-- What stands before the exponent, and the exponent if there is one. -/
def cutExponent : List Char → List Char × Option (List Char)
  | [] => ([], none)
  | c :: cs =>
    if c = 'e' || c = 'E' then ([], some cs)
    else ((c :: (cutExponent cs).1), (cutExponent cs).2)

/-- The value of an exponent: an optional sign and digits. -/
def exponentValue? (cs : List Char) : Option Int :=
  let (negative, digits) := cutSign cs
  match naturalValue? 10 digits with
  | none => none
  | some n => if n ≤ maxExponent then some (if negative then -(n : Int) else n) else none

/-- The value of a decimal: an optional sign, digits with at most one point among them, and an
optional exponent. -/
def decimalValue? (cs : List Char) : Option Rat := do
  let (negative, rest) := cutSign cs
  let (mantissa, exponent) := cutExponent rest
  let (whole, fraction) := (cutFirst '.' mantissa).getD (mantissa, [])
  let digits ← naturalValue? 10 (whole ++ fraction)
  let exponent ← match exponent with
    | none => some 0
    | some e => exponentValue? e
  let value := scaled digits (exponent - fraction.length)
  pure (if negative then -value else value)

/-- The radix that the letter after a leading zero names. -/
def radix? (c : Char) : Option Nat :=
  match c.toLower with
  | 'x' => some 16
  | 'o' => some 8
  | 'b' => some 2
  | _ => none

/-- The value of an integer written with its radix in front. -/
def radixValue? (cs : List Char) : Option Rat := do
  let (negative, rest) := cutSign cs
  match rest with
  | '0' :: letter :: digits =>
    let radix ← radix? letter
    let n ← naturalValue? radix digits
    pure (if negative then -(n : Rat) else n)
  | _ => none

/-- The exact value of a number literal. -/
def numberValue? (cs : List Char) : Option Rat :=
  match cutFirst '/' cs with
  | some (numerator, denominator) => do
    let numerator ← decimalValue? numerator
    let denominator ← decimalValue? denominator
    if denominator = 0 then none else pure (numerator / denominator)
  | none => (decimalValue? cs).orElse fun _ => radixValue? cs

end Diagram
