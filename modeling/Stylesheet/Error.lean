import Stylesheet.Condition.Resolve
import Stylesheet.Config.Basic
import Stylesheet.Constant.Placeholder
import Stylesheet.Delimiter
import Stylesheet.Diagnostic.Basic
import Stylesheet.Node.Parser

/-!
# Errors

Everything that can end the compilation of a document, and the
diagnostic that tells the user about it.
-/

set_option autoImplicit false

namespace Stylesheet

/-- Why a compilation ended. -/
inductive Error where
  /-- A diagnostic that aborts. -/
  | fatal (d : Diagnostic)
  /-- A file cannot be read. -/
  | unreadable (path : Path) (cause : String)
  | config (e : ConfigError)
  | scan (e : ScanError)
  /-- A text was cut inside a character. -/
  | broken
  deriving Repr, DecidableEq

namespace Error

/-- The error on one line. -/
def message : Error → String
  | fatal d => d.summary
  | unreadable path cause => "IO error reading " ++ path.toString ++ ": " ++ cause
  | config e => "Configuration error: " ++ e.message
  | scan e => e.message
  | broken => ""

/-- The diagnostic of an error. -/
def diagnostic : Error → Diagnostic
  | fatal d => d
  | unreadable path cause =>
    { severity := .fatal, title := "Cannot read file", code := some "S-0-1",
      problem := some (path.toString ++ ": " ++ cause) }
  | config e =>
    { severity := .fatal, title := "Invalid configuration", code := some "S-0-1",
      problem := some e.message }
  | scan e =>
    { severity := .fatal, title := "Unbalanced delimiter", code := some "S-2-2",
      problem := some e.message, hints := ["Is a `\x7d` or `)` missing?"] }
  | broken => { severity := .fatal, title := "" }

end Error

/-- The diagnostic of a missing constant. -/
def MissingConstant.diagnostic (e : MissingConstant) : Diagnostic :=
  let name := String.ofList e.name
  { severity := .fatal, title := "Missing constant", code := some "S-2-1",
    problem := some ("`$" ++ name ++ "` is referenced but has no value"),
    hints := ["Define `" ++ name ++ "` in an @constants block or the global configuration?"] }

/-- The diagnostic of a condition without an operator. -/
def noOperatorDiagnostic (expression : Text) : Diagnostic :=
  { severity := .fatal, title := "Invalid conditional", code := some "S-4-1",
    problem := some (noOperatorMessage expression),
    details := [⟨.info, "Supported operators: ==, !=, ===, !==, >, <, >=, <="⟩] }

end Stylesheet
