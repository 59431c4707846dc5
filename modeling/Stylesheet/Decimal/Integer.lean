import Stylesheet.Decimal.Reader

/-!
# Whole numbers

Whole numbers that a machine word of 64 bits holds.
-/

set_option autoImplicit false

namespace Stylesheet

namespace Decimal

/-- Reads a sign and digits as a number of 64 bits; the sign may be
absent. -/
def readInt64? (t : Text) : Option Int :=
  let (negative, digits) := match t with
    | '-' :: r => (true, r)
    | '+' :: r => (false, r)
    | r => (false, r)
  if digits.isEmpty || !digits.all isDigit then none
  else
    let n : Int := if negative then -natOf digits else natOf digits
    if -Int.ofNat (Nat.pow 2 63) ≤ n ∧ n < Int.ofNat (Nat.pow 2 63) then some n else none

/-- Reads the whole number at the front of a text. -/
def leadingInt64? (t : Text) : Option Int :=
  let t := Text.trim t
  let sign := t.takeWhile fun c => c == '-' || c == '+'
  readInt64? (t.take (min sign.length 1) ++ (t.drop (min sign.length 1)).takeWhile isDigit)

end Decimal

end Stylesheet
