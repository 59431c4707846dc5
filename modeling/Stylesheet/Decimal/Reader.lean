import Stylesheet.Text.WordChar

/-!
# Reading numbers

`readFloat?` reads a whole text as a double: an optional sign, digits
with an optional point, an optional exponent, or a word for infinity or
for no number. `leadingNumber?` reads the number at the front of a
value such as `960px`.
-/

set_option autoImplicit false

namespace Stylesheet

namespace Decimal

/-- The value of a row of ASCII digits. -/
def natOf (digits : Text) : Nat := digits.foldl (fun n c => 10 * n + (c.toNat - '0'.toNat)) 0

/-- The double nearest to `digits · 10 ^ exponent`. Exponents far outside
the range of doubles are answered without computing the power. -/
def toFloat (digits : Nat) (exponent : Int) : Float :=
  let places : Int := (Nat.toDigits 10 digits).length
  if digits = 0 then 0.0
  else if exponent + places > 400 then Float.ofScientific 1 false 400
  else if exponent + places < -400 then 0.0
  else match exponent with
    | .ofNat k => Float.ofScientific digits false k
    | .negSucc k => Float.ofScientific digits true (k + 1)

/-- The double of a row of digits with a fraction. -/
def ofDigits (whole fraction : Text) : Float :=
  toFloat (natOf (whole ++ fraction)) (-fraction.length)

/-- The exponent at the end of a number: none, or a mark, an optional
sign and digits. -/
def readExponent? : Text → Option Int
  | [] => some 0
  | c :: r =>
    if c = 'e' ∨ c = 'E' then
      let (negative, digits) := match r with
        | '-' :: r => (true, r)
        | '+' :: r => (false, r)
        | r => (false, r)
      if digits.isEmpty || !digits.all isDigit then none
      else some (if negative then -natOf digits else natOf digits)
    else none

/-- Reads a number without its sign. -/
def readUnsigned? (t : Text) : Option Float :=
  let word := Text.lower t
  if word = "inf".toList ∨ word = "infinity".toList then some (Float.ofScientific 1 false 400)
  else if word = "nan".toList then some (0.0 / 0.0)
  else
    let whole := t.takeWhile isDigit
    let (fraction, rest) := match t.dropWhile isDigit with
      | '.' :: r => (r.takeWhile isDigit, r.dropWhile isDigit)
      | r => ([], r)
    if whole.isEmpty && fraction.isEmpty then none
    else (readExponent? rest).map fun e => toFloat (natOf (whole ++ fraction)) (e - fraction.length)

/-- Reads a whole text as a double. -/
def readFloat? : Text → Option Float
  | '-' :: r => (readUnsigned? r).map fun x => -x
  | '+' :: r => readUnsigned? r
  | t => readUnsigned? t

/-- The digits at the front of a text: a whole part, a fraction behind a
point, and the rest. One of the first two has digits. -/
def takeDigits? (digit : Char → Bool) (t : Text) : Option (Text × Text × Text) :=
  match t.takeWhile digit, t.dropWhile digit with
  | [], '.' :: r =>
    if (r.takeWhile digit).isEmpty then none
    else some ([], r.takeWhile digit, r.dropWhile digit)
  | [], _ => none
  | whole, '.' :: r =>
    if (r.takeWhile digit).isEmpty then some (whole, [], '.' :: r)
    else some (whole, r.takeWhile digit, r.dropWhile digit)
  | whole, r => some (whole, [], r)

/-- A minus sign, if there is one, and the text behind it. -/
def takeSign : Text → Bool × Text
  | '-' :: r => (true, r)
  | t => (false, t)

/-- The number at the front of a value, blanks before it allowed. Digits
of other scripts belong to the number, which then has no value. -/
def leadingNumber? (t : Text) : Option Float :=
  let (negative, unsigned) := takeSign (Text.trimStart t)
  match takeDigits? isDecimalDigit unsigned with
  | none => none
  | some (whole, fraction, _) =>
    if (whole ++ fraction).all isDigit then
      let x := ofDigits whole fraction
      some (if negative then -x else x)
    else none

end Decimal

end Stylesheet
