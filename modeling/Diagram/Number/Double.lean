/-!
The range of the double format. A decimal of any size is compared with it without being rounded, and
without writing out powers of ten that are larger than the limit.
-/
namespace Diagram

/-- Half a unit above the largest finite double, 2^1024 - 2^971. Numbers of this size and more are
rounded to infinity. -/
def doubleLimit : Nat := Nat.pow 2 1024 - Nat.pow 2 970

/-- The number of decimal digits of the limit. -/
def doubleLimitDigits : Nat := 309

/-- `m` times ten to the power `e` is rounded to infinity in the double format. -/
def exceedsDouble (m : Nat) (e : Int) : Bool :=
  let digits : Int := (Nat.toDigits 10 m).length + e
  if m = 0 || digits < doubleLimitDigits then false
  else if digits > doubleLimitDigits then true
  else if 0 ≤ e then doubleLimit ≤ m * Nat.pow 10 e.toNat
  else doubleLimit * Nat.pow 10 (-e).toNat ≤ m

end Diagram
