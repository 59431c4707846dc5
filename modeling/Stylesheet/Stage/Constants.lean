import Stylesheet.Constant.Feed
import Stylesheet.Stage.Basic

/-!
# The stage of constants

Before processing, the table of constants is filled: with the configured
ones, then with those of the feed, then with the entries of the
`@constants` blocks, in which placeholders see all that came before.
Processing fills the placeholders of the document.
-/

set_option autoImplicit false

namespace Stylesheet

namespace Constants

/-- The search for blocks of constants. -/
def search : Block.Search := { pattern := .keyword "@constants".toList }

/-- The diagnostic of a feed that cannot be used. -/
def invalidFeedDiagnostic (path : Path) (e : FeedError) : Diagnostic :=
  { severity := .fatal, title := "Invalid constants feed", code := some "S-1-5",
    problem := some e.message, details := [⟨.info, "Feed: " ++ path.toString⟩] }

/-- The diagnostic of a feed that is not there. -/
def missingFeedDiagnostic (path : Path) : Diagnostic :=
  { severity := .warning, title := "Constants feed missing", code := some "S-1-4",
    problem := some ("`" ++ path.toString ++ "` does not exist"),
    details := [⟨.note, "Feed constants are disabled for this build"⟩] }

/-- Gives several constants their values. -/
def extend (pairs : List (Text × Text)) : Compile Unit :=
  modify fun s => { s with constants := s.constants.extend pairs }

/-- Takes the constants of the feed over, if one is configured. -/
def readFeed : Compile Unit := do
  let job ← read
  match job.config.feed with
  | none => return
  | some path =>
    if job.tree.pathExists path then
      match Feed.load job.tree path with
      | .ok feed => extend feed.entries
      | .error e => Compile.abort (invalidFeedDiagnostic path e)
    else Compile.report (missingFeedDiagnostic path)

/-- Sets one entry of a block. -/
def setEntry (entry : Text × Text) : Compile Unit := do
  Compile.setConstant entry.1 (← Compile.interpolate entry.2)

/-- Takes the blocks of constants out of the document and sets their
entries. -/
def readBlocks : Compile Unit := do
  let (text, blocks) ← Compile.ofScan (Block.extract search (← get).text)
  Compile.setText text
  (blocks.flatMap fun b => properties b.body).forM setEntry

/-- Fills the table of constants. -/
def seed : Compile Unit := do
  extend (← Compile.config).globals.entries
  readFeed
  readBlocks

/-- Fills the placeholders of the document. -/
def fill : Compile Unit := do
  Compile.setText (← Compile.interpolate (← get).text)

/-- The stage of constants. -/
def stage : Stage where
  name := "constants"
  phases := [.preProcess, .process]
  run
    | .preProcess => seed
    | .process => fill
    | _ => return

end Constants

end Stylesheet
