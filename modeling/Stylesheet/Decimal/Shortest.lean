import Stylesheet.Decimal.Binary

/-!
# Shortest decimals

The shortest decimal of a double is the one with the fewest digits among
those that read back as that double, and the nearest to it of these. It
is found by trying one digit, two digits and so on: on the grid of
decimals with so many digits only the two neighbours of the value have
to be asked. Which of two equally near ones is taken is the choice of
the format that is written.
-/

set_option autoImplicit false

namespace Stylesheet

/-- A positive decimal `digits · 10 ^ exponent`. -/
structure Decimal where
  digits : Nat
  exponent : Int
  deriving Repr, DecidableEq

namespace Decimal

/-- Drops zeros at the end of the digits. Seventeen rounds are enough
for a shortest decimal, which is where this is used. -/
def normalize (d : Decimal) : Decimal := go 20 d
where
  go : Nat → Decimal → Decimal
    | 0, d => d
    | n + 1, d =>
      if d.digits ≠ 0 ∧ d.digits % 10 = 0 then go n ⟨d.digits / 10, d.exponent + 1⟩ else d

/-- Which of two equally near decimals is taken. -/
inductive Tie where
  /-- The greater one. -/
  | toUpper
  /-- The one whose last digit is even. -/
  | toEven
  deriving Repr, DecidableEq

/-- Whether the upper one of two equally near decimals is taken, given the
digits of the lower one. -/
def Tie.takesUpper (tie : Tie) (lower : Nat) : Bool :=
  match tie with
  | .toUpper => true
  | .toEven => lower % 2 = 1

/-- The reals that read back as one double: an interval with its ends
`low / den` and `high / den` around the value `mid / den`. -/
structure Interval where
  low : Nat
  mid : Nat
  high : Nat
  den : Nat
  /-- Whether the ends belong to it. -/
  closed : Bool

/-- The interval of `m · 2 ^ q`: half the distance to the neighbours on
both sides, a quarter below where a binade begins. The ends round to an
even `m`. -/
def interval (m : Nat) (q : Int) : Interval :=
  let below := if m = Nat.pow 2 52 ∧ q ≠ -1074 then 1 else 2
  let (unit, den) := FloatParts.ratio 1 (q - 2)
  { low := (4 * m - below) * unit, mid := 4 * m * unit, high := (4 * m + 2) * unit, den,
    closed := m % 2 = 0 }

/-- How many digits a value `num / den` has before the decimal point;
zero or less if it is below one. -/
def magnitude (num den : Nat) : Int :=
  if den ≤ num then (Nat.toDigits 10 (num / den)).length
  else
    match (List.range 400).find? fun k => den ≤ num * Nat.pow 10 k with
    | some k => 1 - k
    | none => 0

/-- Whether `digits · 10 ^ exponent` lies in an interval. -/
def Interval.contains (i : Interval) (d : Decimal) : Bool :=
  let (num, den) := match d.exponent with
    | .ofNat k => (d.digits * Nat.pow 10 k, 1)
    | .negSucc k => (d.digits, Nat.pow 10 (k + 1))
  let value := num * i.den
  if i.closed then i.low * den ≤ value && value ≤ i.high * den
  else i.low * den < value && value < i.high * den

/-- The two decimals with a given last place around the value of an
interval, and whether the upper one is to be preferred. -/
def Interval.neighbours (i : Interval) (tie : Tie) (exponent : Int) :
    Decimal × Decimal × Bool :=
  let (num, den) := match exponent with
    | .ofNat k => (i.mid, i.den * Nat.pow 10 k)
    | .negSucc k => (i.mid * Nat.pow 10 (k + 1), i.den)
  let lower := num / den
  let twice := 2 * (num % den)
  (⟨lower, exponent⟩, ⟨lower + 1, exponent⟩, den < twice || (twice = den && tie.takesUpper lower))

/-- The decimal of an interval whose last place is `exponent`, if there
is one. -/
def Interval.pick? (i : Interval) (tie : Tie) (exponent : Int) : Option Decimal :=
  let (lower, upper, prefersUpper) := i.neighbours tie exponent
  match i.contains lower && lower.digits ≠ 0, i.contains upper with
  | true, true => some (if prefersUpper then upper else lower)
  | true, false => some lower
  | false, true => some upper
  | false, false => none

/-- The shortest decimal of `m · 2 ^ q`, which is not zero. -/
def shortest (tie : Tie) (m : Nat) (q : Int) : Decimal :=
  let i := interval m q
  let top := magnitude i.mid i.den
  match (List.range 18).findSome? fun (n : Nat) => i.pick? tie (top - (n + 1)) with
  | some d => d.normalize
  | none => ⟨0, 0⟩

end Decimal

end Stylesheet
