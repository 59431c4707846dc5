import Stylesheet.Decimal.Shortest
import Stylesheet.Text.Basic

/-!
# Writing numbers

Three ways of writing a double. `plain` is the shortest decimal in
positional notation, without a point for whole numbers and the greater
one of two that are equally near. `exponential` is the shortest decimal
with a fraction always written, and with a signed exponent once the
point would stand more than sixteen places to the right or five to the
left; a tie goes to the even digit. `fixed` has a set number of places and rounds
the exact value, a tie to the even digit.
-/

set_option autoImplicit false

namespace Stylesheet

namespace Decimal

/-- The digits of a natural number. -/
def digitsOf (n : Nat) : Text := Nat.toDigits 10 n

/-- As many zeros. -/
def zeros (n : Nat) : Text := List.replicate n '0'

/-- A minus sign where one is due. -/
def signed (negative : Bool) (t : Text) : Text := if negative then '-' :: t else t

/-- A positive decimal in positional notation. -/
def positional (d : Decimal) : Text :=
  let digits := digitsOf d.digits
  match d.exponent with
  | .ofNat k => digits ++ zeros k
  | .negSucc k =>
    let places := k + 1
    if places < digits.length then
      digits.take (digits.length - places) ++ '.' :: digits.drop (digits.length - places)
    else '0' :: '.' :: (zeros (places - digits.length) ++ digits)

/-- A double by its shortest decimal in positional notation. -/
def plain (x : Float) : Text :=
  match FloatParts.of x with
  | .nan => "NaN".toList
  | .infinite negative => signed negative "inf".toList
  | .finite negative m q =>
    signed negative (if m = 0 then ['0'] else positional (shortest .toUpper m q))

/-- The digits of an integer behind its sign, plus included. -/
def signedDigits : Int → Text
  | .ofNat n => '+' :: digitsOf n
  | .negSucc n => '-' :: digitsOf (n + 1)

/-- A positive decimal with a fraction or an exponent. -/
def scientific (d : Decimal) : Text :=
  let digits := digitsOf d.digits
  let point := d.exponent + digits.length
  if 0 ≤ d.exponent ∧ point ≤ 16 then digits ++ zeros d.exponent.toNat ++ ['.', '0']
  else if -5 < point ∧ point ≤ 16 then positional d
  else
    let exponent := signedDigits (point - 1)
    match digits with
    | [] => []
    | [c] => c :: 'e' :: exponent
    | c :: r => c :: '.' :: (r ++ 'e' :: exponent)

/-- A finite double with a fraction or an exponent. -/
def exponential (x : Float) : Text :=
  match FloatParts.of x with
  | .finite negative m q =>
    signed negative (if m = 0 then "0.0".toList else scientific (shortest .toEven m q))
  | _ => "null".toList

/-- The natural number nearest to `num / den`, the even one of two. -/
def roundHalfEven (num den : Nat) : Nat :=
  let low := num / den
  let twice := 2 * (num % den)
  if den < twice ∨ (twice = den ∧ low % 2 = 1) then low + 1 else low

/-- A double with a fixed number of places, one at least. -/
def fixed (places : Nat) (x : Float) : Text :=
  match FloatParts.of x with
  | .nan => "NaN".toList
  | .infinite negative => signed negative "inf".toList
  | .finite negative m q =>
    let (num, den) := FloatParts.ratio m q
    let n := roundHalfEven (num * Nat.pow 10 places) den
    let fraction := digitsOf (n % Nat.pow 10 places)
    signed negative
      (digitsOf (n / Nat.pow 10 places) ++ '.' :: (zeros (places - fraction.length) ++ fraction))

end Decimal

end Stylesheet
