import Stylesheet.Decimal.Layout
import Stylesheet.Decimal.Reader

/-!
# Grids

A grid divides a page into columns with gutters. `Grid.derive` computes
its measures, in pixels, from the number of columns, the base line, the
width of the page and the two gutters; `constants` are the names that
stylesheets use for them.
-/

set_option autoImplicit false

namespace Stylesheet

/-- A measure: whole numbers as such, others with at most four places. -/
def measure (x : Float) : Text :=
  match FloatParts.of x with
  | .finite _ m q =>
    let (num, den) := FloatParts.ratio m q
    if num % den = 0 ∧ num / den < Nat.pow 10 15 then
      Decimal.signed (x < 0.0) (Decimal.digitsOf (num / den))
    else rounded
  | _ => rounded
where
  rounded : Text :=
    let digits := (Decimal.fixed 4 x).reverse.dropWhile (· == '0')
    (digits.dropWhile (· == '.')).reverse

/-- The measures of a grid. -/
structure Grid where
  columnCount : Nat
  columnWidth : Float
  gutterWidth : Float
  leftGutterWidth : Float
  rightGutterWidth : Float
  gridWidth : Float
  baseline : Float
  deriving Repr

namespace Grid

/-- A grid from its defining properties. Columns are whole pixels wide,
and a grid without columns is measured as if it had one. -/
def derive (columnCount : Nat) (baseline gridWidth left right : Float) : Grid :=
  let gutter := left + right
  let count := Float.ofNat (max columnCount 1)
  { columnCount
    columnWidth := ((gridWidth - count * gutter) / count).floor
    gutterWidth := gutter
    leftGutterWidth := left
    rightGutterWidth := right
    gridWidth
    baseline }

/-- The width of `n` columns with the gutters between them. -/
def columns (g : Grid) (n : Nat) : Float :=
  let n := Float.ofNat n
  n * g.columnWidth + n * g.gutterWidth - g.gutterWidth

/-- A measure in pixels. -/
def pixels (x : Float) : Text := measure x ++ ['p', 'x']

/-- The constants that a grid defines, in order. -/
def constants (g : Grid) : List (Text × Text) :=
  (List.range g.columnCount).map (fun i =>
      ("columns_".toList ++ Decimal.digitsOf (i + 1), pixels (g.columns (i + 1))))
    ++ [("column_width".toList, pixels g.columnWidth),
        ("gutter_width".toList, pixels g.gutterWidth),
        ("left_gutter_width".toList, pixels g.leftGutterWidth),
        ("right_gutter_width".toList, pixels g.rightGutterWidth),
        ("grid_width".toList, pixels g.gridWidth),
        ("baseline".toList, pixels g.baseline),
        ("column_count".toList, Decimal.digitsOf g.columnCount)]

/-- The number of columns that a property asks for: whole, not negative,
and at most what 32 bits hold. -/
def countOf (x : Float) : Nat := x.toUInt32.toNat

end Grid

end Stylesheet
