import Stylesheet.Extension.Color

/-!
# Baseline functions

`baseline` gives a multiple of the base line of the grid, and
`baseline_round` the multiple nearest to a length. Without a grid both
reject everything.
-/

set_option autoImplicit false

namespace Stylesheet

namespace Extension

/-- The function `baseline`. -/
def baseline : Function where
  name := "baseline".toList
  call state args :=
    match args with
    | [n] => do
      let grid ← state.grid
      let n ← Decimal.leadingNumber? n
      return Grid.pixels (grid.baseline * n)
    | _ => none

/-- The function `baseline_round`. A half goes away from zero. -/
def baselineRound : Function where
  name := "baseline_round".toList
  call state args :=
    match args with
    | [n] => do
      let grid ← state.grid
      let n ← Decimal.leadingNumber? n
      if grid.baseline == 0.0 then none
      else return Grid.pixels ((n / grid.baseline).round * grid.baseline)
    | _ => none

/-- The functions that every compiler has. -/
def builtinFunctions : List Function := [hsla, cmyk, cmyka, baseline, baselineRound]

/-- The registry that every compiler has. -/
def Registry.builtin : Registry := { functions := builtinFunctions }

end Extension

end Stylesheet
