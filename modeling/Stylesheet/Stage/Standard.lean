import Stylesheet.Extension.Baseline
import Stylesheet.Flag
import Stylesheet.Include
import Stylesheet.Loop
import Stylesheet.Node.Flat
import Stylesheet.Node.Printer
import Stylesheet.Stage.Layout
import Stylesheet.Stage.Mixins
import Stylesheet.Url

/-!
# The standard stages

The stages of the compiler in their order. Those that take part in one
phase do the same in every phase they are run for.
-/

set_option autoImplicit false

namespace Stylesheet

namespace Stage

/-- Resolves the includes of the document. -/
def includes : Stage where
  name := "import"
  phases := [.importing]
  run _ := do
    let dir := (← read).path.directory
    Compile.setText (← resolveIncludes dir (← Compile.takeText))

/-- Expands the loops of the document. -/
def iteration : Stage where
  name := "iteration"
  phases := [.preProcess]
  run _ := do Compile.setText (← expandLoops (← Compile.takeText))

/-- Resolves the conditionals of the document. -/
def conditionals : Stage where
  name := "conditionals"
  phases := [.process]
  run _ := do Compile.setText (← Compile.resolveConditionals (← get).text)

/-- Resolves the flag blocks of the document. -/
def flags : Stage where
  name := "flags"
  phases := [.process]
  run _ := do
    let s ← get
    Compile.setText (← Compile.ofScan (resolveFlags s.flags s.text))

/-- The diagnostic of declarations that have no selector. -/
def droppedDiagnostic (header : Text) : Diagnostic :=
  { severity := .warning, title := "Declarations in grouping rule", code := some "S-7-1",
    problem := some ("Declarations placed directly inside `" ++ String.ofList header
      ++ "` were dropped"),
    hints := ["Wrap them in a selector inside the grouping rule?"] }

/-- Flattens the nested rules of the document. -/
def nesting : Stage where
  name := "nesting"
  phases := [.postProcess]
  run _ := do
    let nodes ← Compile.parse (← get).text
    let flat := Node.flatten (← Compile.config).skip nodes
    flat.dropped.forM fun header => Compile.report (droppedDiagnostic header)
    Compile.setText flat.render

/-- Replaces the calls and declarations of extensions. -/
def extensions (registry : Extension.Registry) : Stage where
  name := "extensions"
  phases := [.postProcess]
  run _ := do Compile.setText (← registry.apply (← get).text)

/-- Makes URLs absolute, if the document lies below a document root. -/
def urls : Stage where
  name := "urls"
  phases := [.formatting]
  run _ := do
    let job ← read
    match job.config.documentRoot with
    | none => return
    | some root =>
      match Url.ofDirectory? job.tree job.path.directory root with
      | none => return
      | some dir => Compile.setText (← rewriteUrls dir root (← Compile.takeText))

/-- Writes the document as the options of the formatter ask for it. -/
def formatter : Stage where
  name := "formatter"
  phases := [.formatting]
  run _ := do
    let nodes ← Compile.parse (← get).text
    Compile.setText (Node.format (← Compile.config).format nodes)

/-- The stages of the compiler. -/
def standard : List Stage :=
  [includes, Constants.stage, Layout.stage, iteration, Mixin.stage, conditionals, flags, nesting,
   extensions .builtin, urls, formatter]

end Stage

end Stylesheet
