import Stylesheet.Json.Basic
import Stylesheet.Decimal.Layout
import Stylesheet.Decimal.Reader

/-!
# Reading JSON

`Json.parse?` reads exactly one value with blanks around it. Arrays and
objects nest less than 128 deep. Whole numbers that fit 64 bits, signed
or not, keep their digits; every other number goes through a double. Its
digits are first gathered in 64 bits, further ones being dropped, and
the double of these is then multiplied or divided by the double of a
power of ten; a result outside the range of doubles is an error.
-/

set_option autoImplicit false

namespace Stylesheet

namespace Json

/-! ### Numbers -/

/-- The greatest number of 64 bits. -/
def wordMax : Nat := Nat.pow 2 64 - 1

/-- The double of a power of ten. -/
def powerOfTen (k : Nat) : Float := Float.ofScientific 1 false k

/-- `significand · 10 ^ exponent` in doubles. Steps of `10 ^ 308` down
are taken one at a time, at most two of them before the value is zero. -/
def scale? (significand : Nat) (exponent : Int) : Option Float :=
  go 4 (Float.ofNat significand) exponent
where
  go : Nat → Float → Int → Option Float
    | 0, x, _ => some x
    | n + 1, x, e =>
      if e.natAbs ≤ 308 then
        if 0 ≤ e then
          let y := x * powerOfTen e.natAbs
          if y.isInf then none else some y
        else some (x / powerOfTen e.natAbs)
      else if x == 0.0 then some x
      else if 0 ≤ e then none
      else go n (x / powerOfTen 308) (e + 308)

/-- Gathers digits into a number of 64 bits, from the front. Returns the
number, how many digits it took, and the digits that did not fit. -/
def gather (significand : Nat) : Text → Nat × Nat × Text
  | [] => (significand, 0, [])
  | c :: r =>
    let next := 10 * significand + Decimal.natOf [c]
    if wordMax < next then (significand, 0, c :: r)
    else
      let (s, taken, left) := gather next r
      (s, taken + 1, left)

/-- The exponent of a number: its mark is taken, digits must follow. -/
def takeExponent? (t : Text) : Option (Int × Text) :=
  let (negative, r) := match t with
    | '-' :: r => (true, r)
    | '+' :: r => (false, r)
    | r => (false, r)
  let digits := r.takeWhile isDigit
  if digits.isEmpty then none
  else
    let n : Int := Decimal.natOf digits
    some (if negative then -n else n, r.dropWhile isDigit)

/-- The greatest exponent that is still computed with. -/
def exponentMax : Nat := Nat.pow 2 31 - 1

/-- The printed text of a double with these digits and this exponent. -/
def floatText? (negative : Bool) (significand : Nat) (exponent : Int) : Option Text :=
  (scale? significand exponent).map fun x => Decimal.exponential (if negative then -x else x)

/-- Reads a number behind its sign. -/
def takeUnsigned? (negative : Bool) (t : Text) : Option (Json × Text) :=
  let whole := t.takeWhile isDigit
  let r := t.dropWhile isDigit
  if whole.isEmpty || (whole.head? == some '0' && whole.length ≠ 1) then none
  else
    let (significand, _, left) := gather 0 whole
    -- Digits before the point that did not fit still count as places.
    let places : Int := left.length
    let fractionOf : Option (Option Text × Text) := match r with
      | '.' :: r' =>
        if (r'.takeWhile isDigit).isEmpty then none
        else some (some (r'.takeWhile isDigit), r'.dropWhile isDigit)
      | _ => some (none, r)
    match fractionOf with
    | none => none
    | some (fraction, r) =>
      let (significand, exponent) := match fraction with
        | none => (significand, places)
        | some f =>
          let (s, taken, _) := gather significand f
          (s, places - taken)
      match r with
      | c :: r' =>
        if c = 'e' ∨ c = 'E' then
          match takeExponent? r' with
          | none => none
          | some (e, rest) =>
            if exponentMax < e.natAbs then
              if significand ≠ 0 ∧ 0 ≤ e then none
              else some (.number (if negative then "-0.0".toList else "0.0".toList), rest)
            else (floatText? negative significand (exponent + e)).map fun x => (.number x, rest)
        else finish fraction left significand exponent r
      | [] => finish fraction left significand exponent r
where
  finish (fraction : Option Text) (left : Text) (significand : Nat) (exponent : Int) (r : Text) :
      Option (Json × Text) :=
    -- A whole number that fits keeps its digits; minus zero does not count as whole.
    if fraction.isNone && left.isEmpty && (!negative || (significand ≠ 0 && significand ≤ Nat.pow 2 63))
    then some (.number (Decimal.signed negative (Decimal.digitsOf significand)), r)
    else (floatText? negative significand exponent).map fun x => (.number x, r)

/-! ### Strings -/

/-- The value of a hexadecimal digit. -/
def hexValue? (c : Char) : Option Nat :=
  if '0' ≤ c ∧ c ≤ '9' then some (c.toNat - '0'.toNat)
  else if 'a' ≤ c ∧ c ≤ 'f' then some (c.toNat - 'a'.toNat + 10)
  else if 'A' ≤ c ∧ c ≤ 'F' then some (c.toNat - 'A'.toNat + 10)
  else none

/-- Four hexadecimal digits. -/
def takeHex4? : Text → Option (Nat × Text)
  | a :: b :: c :: d :: r => do
    let x ← hexValue? a
    let y ← hexValue? b
    let z ← hexValue? c
    let w ← hexValue? d
    return (((x * 16 + y) * 16 + z) * 16 + w, r)
  | _ => none

/-- The character of an escape behind `\u`: one unit, or two that form a
surrogate pair. -/
def takeUnicode? (t : Text) : Option (Char × Text) := do
  let (high, r) ← takeHex4? t
  if 0xDC00 ≤ high ∧ high ≤ 0xDFFF then none
  else if 0xD800 ≤ high ∧ high ≤ 0xDBFF then
    match r with
    | '\\' :: 'u' :: r' => do
      let (low, rest) ← takeHex4? r'
      if 0xDC00 ≤ low ∧ low ≤ 0xDFFF then
        return (Char.ofNat (0x10000 + (high - 0xD800) * 0x400 + (low - 0xDC00)), rest)
      else none
    | _ => none
  else return (Char.ofNat high, r)

/-- The rest of a string behind its opening quote, with a bound on its
length. -/
def takeString? : Nat → Text → Option (Text × Text)
  | 0, _ => none
  | _ + 1, [] => none
  | n + 1, c :: r =>
    if c = '"' then some ([], r)
    else if c.toNat < 32 then none
    else if c = '\\' then
      let continue? (d : Char) (rest : Text) : Option (Text × Text) :=
        (takeString? n rest).map fun (t, rest) => (d :: t, rest)
      match r with
      | '"' :: rest => continue? '"' rest
      | '\\' :: rest => continue? '\\' rest
      | '/' :: rest => continue? '/' rest
      | 'b' :: rest => continue? '\x08' rest
      | 'f' :: rest => continue? '\x0c' rest
      | 'n' :: rest => continue? '\n' rest
      | 'r' :: rest => continue? '\r' rest
      | 't' :: rest => continue? '\t' rest
      | 'u' :: rest =>
        match takeUnicode? rest with
        | some (d, rest) => continue? d rest
        | none => none
      | _ => none
    else (takeString? n r).map fun (t, rest) => (c :: t, rest)

/-! ### Values -/

/-- Blanks of JSON: space, tab, line feed and carriage return. -/
def isGap (c : Char) : Bool := c == ' ' || c == '\t' || c == '\n' || c == '\r'

/-- Drops blanks. -/
def skipGap (t : Text) : Text := t.dropWhile isGap

/-- The kinds of thing that a step of the reader can be asked for. -/
inductive Goal where
  /-- A value. -/
  | value
  /-- The items of an array, of which at least one is to come. -/
  | items
  /-- The members of an object, of which at least one is to come. -/
  | members

/-- Reads what is asked for, as a value, an array or an object. `fuel`
bounds the steps and `depth` the arrays and objects that may still be
opened. -/
def take? (fuel depth : Nat) (goal : Goal) (t : Text) : Option (Json × Text) :=
  match fuel with
  | 0 => none
  | n + 1 =>
    match goal with
    | .value =>
      match skipGap t with
      | '"' :: r => (takeString? (r.length + 1) r).map fun (s, rest) => (.string s, rest)
      | '-' :: r => takeUnsigned? true r
      | '[' :: r =>
        if depth ≤ 1 then none
        else match skipGap r with
          | ']' :: rest => some (.array [], rest)
          | _ => take? n (depth - 1) .items r
      | '{' :: r =>
        if depth ≤ 1 then none
        else match skipGap r with
          | '}' :: rest => some (.object [], rest)
          | _ => take? n (depth - 1) .members r
      | r =>
        match Text.after? "null".toList r, Text.after? "true".toList r,
            Text.after? "false".toList r with
        | some rest, _, _ => some (.null, rest)
        | _, some rest, _ => some (.bool true, rest)
        | _, _, some rest => some (.bool false, rest)
        | _, _, _ => takeUnsigned? false r
    | .items =>
      match take? n depth .value t with
      | none => none
      | some (v, r) =>
        match skipGap r with
        | ']' :: rest => some (.array [v], rest)
        | ',' :: rest =>
          match take? n depth .items rest with
          | some (.array vs, rest) => some (.array (v :: vs), rest)
          | _ => none
        | _ => none
    | .members =>
      match skipGap t with
      | '"' :: r =>
        match takeString? (r.length + 1) r with
        | none => none
        | some (name, r) =>
          match skipGap r with
          | ':' :: r =>
            match take? n depth .value r with
            | none => none
            | some (v, r) =>
              match skipGap r with
              | '}' :: rest => some (.object [(name, v)], rest)
              | ',' :: rest =>
                match take? n depth .members rest with
                | some (.object ms, rest) => some (.object ((name, v) :: ms), rest)
                | _ => none
              | _ => none
          | _ => none
      | _ => none

/-- Reads a text that is one value. Names given twice stay in the
members, in order. -/
def parse? (t : Text) : Option Json :=
  match take? (2 * t.length + 2) 128 .value t with
  | some (v, rest) => if (skipGap rest).isEmpty then some v else none
  | none => none

end Json

end Stylesheet
