import Stylesheet.Stage.Constants

/-!
# The stage of the grid

A document may describe its grid in one `@grid` block. The measures of
the grid become constants.
-/

set_option autoImplicit false

namespace Stylesheet

namespace Layout

/-- The search for grid blocks. -/
def search : Block.Search := { pattern := .keyword "@grid".toList }

/-- The diagnostic of several grid blocks. -/
def multipleDiagnostic (count : Nat) : Diagnostic :=
  { severity := .fatal, title := "Multiple grid blocks", code := some "S-6-1",
    problem := some ("Found " ++ toString count ++ " @grid blocks; only one is allowed") }

/-- The diagnostic of a missing property. -/
def missingDiagnostic (name : String) : Diagnostic :=
  { severity := .fatal, title := "Missing grid property", code := some "S-6-2",
    problem := some ("@grid is missing a numeric `" ++ name ++ "`"),
    details := [⟨.info, "Required: column-count, baseline, grid-width"⟩] }

/-- The number that a property begins with. Of several properties with
one name the last counts. -/
def number? (props : List (Text × Text)) (name : String) : Option Float :=
  (props.reverse.lookup name.toList).bind Decimal.leadingNumber?

/-- A number that must be there. -/
def required (props : List (Text × Text)) (name : String) : Compile Float :=
  match number? props name with
  | some x => return x
  | none => Compile.abort (missingDiagnostic name)

/-- The grid that the properties of a block describe. -/
def gridOf (props : List (Text × Text)) : Compile Grid := do
  let count ← required props "column-count"
  let baseline ← required props "baseline"
  let width ← required props "grid-width"
  let left := (number? props "left-gutter-width").getD 0.0
  let right := (number? props "right-gutter-width").getD 0.0
  return Grid.derive (Grid.countOf count) baseline width left right

/-- Takes the grid block out of the document and sets the grid. -/
def run : Compile Unit := do
  let (text, blocks) ← Compile.ofScan (Block.extract search (← get).text)
  match blocks with
  | [] => return
  | [block] => do
    Compile.setText text
    let grid ← gridOf (properties block.body)
    Constants.extend grid.constants
    modify fun s => { s with grid := some grid }
  | _ => Compile.abort (multipleDiagnostic blocks.length)

/-- The stage of the grid. -/
def stage : Stage where
  name := "layout"
  phases := [.preProcess]
  run _ := run

end Layout

end Stylesheet
