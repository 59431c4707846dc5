import Stylesheet.Mixin.Expansion
import Stylesheet.Stage.Basic

/-!
# The stage of mixins

Importing appends the files of the mixin directory to the document,
before processing the definitions are taken out of it, and processing
expands the invocations.
-/

set_option autoImplicit false

namespace Stylesheet

namespace Mixin

/-- Appends a file to the document, without its comments. -/
def appendFile (path : Path) : Compile Unit := do
  let source ← Compile.loadSource path
  modify fun s =>
    let s := s.recordFile path source.modified
    { s with text := s.text ++ '\n' :: stripBlockComments source.text }

/-- Appends the stylesheets of the mixin directory, if there is one. -/
def autoInclude : Compile Unit := do
  let job ← read
  match job.config.autoInclude with
  | none => return
  | some dir =>
    match job.tree.filesUnder dir with
    | .error e => throw (.unreadable dir e.message)
    | .ok files => (files.filter fun p => p.extension? == some "css".toList).forM appendFile

/-- Takes the definitions out of the document. -/
def extract : Compile Unit := do
  let (text, blocks) ← Compile.ofScan (Block.extract definitions (← get).text)
  modify fun s =>
    { s with text, mixins := (blocks.map Definition.ofBlock).foldl define s.mixins }

/-- Expands the invocations of the document. -/
def expand : Compile Unit := do
  Compile.setText (← expandAll [] (← Compile.takeText))

/-- The stage of mixins. -/
def stage : Stage where
  name := "mixins"
  phases := [.importing, .preProcess, .process]
  run
    | .importing => autoInclude
    | .preProcess => extract
    | .process => expand
    | _ => return

end Mixin

end Stylesheet
