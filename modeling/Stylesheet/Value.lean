import Stylesheet.Config.Basic
import Stylesheet.Cut
import Stylesheet.Decimal.Reader
import Stylesheet.Tight

/-!
# Short values

Compressed output writes some values of declarations in a shorter way:
colours of three channels as hexadecimal digits, font weights as
numbers, and zero lengths without their unit.
-/

set_option autoImplicit false

namespace Stylesheet

namespace Value

/-! ### Colours -/

/-- Reads one to three digits between blanks and then a mark. -/
def takeChannel? (mark : Char) (t : Text) : Option (Text × Text) :=
  let start := t.dropWhile isBlank
  let digits := start.takeWhile isDigit
  match (start.dropWhile isDigit).dropWhile isBlank with
  | [] => none
  | c :: rest =>
    if c = mark ∧ 1 ≤ digits.length ∧ digits.length ≤ 3 then some (digits, rest) else none

/-- Reads `rgb(r,g,b)` in letters of either case: the three channels and
the text behind. -/
def takeRgb? (t : Text) : Option (List Text × Text) :=
  match Text.afterLetters? "rgb(".toList t with
  | none => none
  | some t =>
    match takeChannel? ',' t with
    | none => none
    | some (red, t) =>
      match takeChannel? ',' t with
      | none => none
      | some (green, t) =>
        match takeChannel? ')' t with
        | none => none
        | some (blue, rest) => some ([red, green, blue], rest)

/-- A channel as two hexadecimal digits; there are none for a channel
above 255. -/
def hexChannel? (digits : Text) : Option Text :=
  let n := Decimal.natOf digits
  if n ≤ 255 then some [Nat.digitChar (n / 16), Nat.digitChar (n % 16)] else none

/-- A colour as hexadecimal digits. -/
def hexColor? (channels : List Text) : Option Text :=
  (channels.mapM hexChannel?).map fun digits => '#' :: digits.flatten

/-- The hexadecimal form of the colour at a place, and its length. -/
def colorAt? (behind ahead : Text) : Option (Text × Nat) :=
  if !endsWord behind then none
  else match takeRgb? ahead with
    | none => none
    | some (channels, rest) =>
      (hexColor? channels).map fun hex => (hex, ahead.length - rest.length)

/-- Writes colours in hexadecimal. -/
def hexColors (t : Text) : Text := (Cut.scan colorAt? t).fill id

/-! ### Font weights -/

/-- The number of a font weight that is given by a word. -/
def weight (value : Text) : Text :=
  if Text.sameLetters value "bold".toList then "700".toList
  else if Text.sameLetters value "normal".toList then "400".toList
  else value

/-! ### Lengths of zero -/

/-- The units of lengths. -/
def units : List Text :=
  ["px", "em", "rem", "ex", "ch", "pt", "pc", "in", "cm", "mm", "vw", "vh"].map String.toList

/-- Reads a zero with its unit: the text behind. -/
def takeZero? (t : Text) : Option Text :=
  let unsigned := match t with
    | '-' :: r => r
    | r => r
  match unsigned with
  | '0' :: r =>
    let number := match r with
      | '.' :: '0' :: r => r.dropWhile (· == '0')
      | r => r
    match units.findSome? (Text.afterLetters? · number) with
    | some rest => if endsWord rest then some rest else none
    | none => none
  | _ => none

/-- What the zero length at a place becomes. A blank, a comma or an
opening parenthesis comes before it, unless it is the start of the
value; that character is kept. -/
def zeroAt? (behind ahead : Text) : Option (Text × Nat) :=
  match if behind.isEmpty then takeZero? ahead else none with
  | some rest => some (['0'], ahead.length - rest.length)
  | none =>
    match ahead with
    | [] => none
    | c :: r =>
      if isBlank c || c == ',' || c == '(' then
        (takeZero? r).map fun rest => ([c, '0'], ahead.length - rest.length)
      else none

/-- Drops the units of zero lengths. -/
def dropZeroUnits (t : Text) : Text := (Cut.scan zeroAt? t).fill id

/-- The value of a declaration as compressed output writes it. -/
def compress (options : FormatOptions) (name value : Text) : Text :=
  let tight := tighten [','] (Text.collapse value)
  let coloured := if options.rgbToHex then hexColors tight else tight
  let weighed :=
    if options.fontWeightsToNumbers && Text.sameLetters name "font-weight".toList
    then weight coloured else coloured
  if options.removeEmptyMeasurements then dropZeroUnits weighed else weighed

end Value

end Stylesheet
