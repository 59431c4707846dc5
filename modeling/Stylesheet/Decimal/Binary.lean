/-!
# Binary floating point, taken apart

The exact value of a finite double is `m · 2 ^ q` for a natural number
`m` and an integer `q`. `FloatParts.of` reads both from the bits, and
`ratio` writes the value as a quotient of natural numbers, on which all
decimal conversions are exact.
-/

set_option autoImplicit false

namespace Stylesheet

/-- What a double stands for. -/
inductive FloatParts where
  | nan
  | infinite (negative : Bool)
  /-- The value is `± m · 2 ^ q`. -/
  | finite (negative : Bool) (m : Nat) (q : Int)
  deriving Repr, DecidableEq

namespace FloatParts

/-- Reads the parts of a double from its bits: the sign, eleven bits of
exponent and 52 bits of fraction. -/
def of (x : Float) : FloatParts :=
  let bits := x.toBits.toNat
  let negative := bits / Nat.pow 2 63 == 1
  let exponent : Nat := bits / Nat.pow 2 52 % Nat.pow 2 11
  let fraction : Nat := bits % Nat.pow 2 52
  if exponent = 2047 then
    if fraction = 0 then infinite negative else nan
  else if exponent = 0 then finite negative fraction (-1074)
  else finite negative (Nat.pow 2 52 + fraction) (Int.ofNat exponent - 1075)

/-- The quotient `m · 2 ^ q`, as numerator and denominator. -/
def ratio (m : Nat) (q : Int) : Nat × Nat :=
  match q with
  | .ofNat k => (m * Nat.pow 2 k, 1)
  | .negSucc k => (m, Nat.pow 2 (k + 1))

end FloatParts

end Stylesheet
