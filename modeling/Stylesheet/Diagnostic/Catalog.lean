import Stylesheet.Diagnostic.Severity

/-!
# The catalog of diagnostics

Every diagnostic of the compiler has a code. The catalog says for each
code which part of the compiler reports it, with which severity, and
what it means.
-/

set_option autoImplicit false

namespace Stylesheet

/-- What the catalog says of a code. -/
structure CatalogEntry where
  code : String
  subsystem : String
  title : String
  message : String
  severity : Severity
  /-- The version that introduced the code. -/
  since : String
  deriving Repr, DecidableEq

namespace Catalog

/-- An entry of the first version. -/
def entry (code subsystem title message : String) (severity : Severity) : CatalogEntry :=
  { code, subsystem, title, message, severity, since := "0.1.0" }

/-- The catalog, by code. -/
def entries : List CatalogEntry := [
  entry "S-0-1" "internal" "Internal Error"
    "An internal error occurred. This is a bug in Scaffold." .fatal,
  entry "S-1-1" "import" "Included File Not Found"
    "The file named in an @include statement could not be found." .fatal,
  entry "S-1-2" "import" "Invalid Include Extension"
    "Only .css files can be included; the extension was replaced." .warning,
  entry "S-1-3" "import" "Unsupported Input File"
    "Only .css files can be compiled." .fatal,
  entry "S-1-4" "constants" "Constants Feed Missing"
    "The configured constants feed does not exist; feed constants are disabled." .warning,
  entry "S-1-5" "constants" "Invalid Constants Feed"
    "The configured constants feed could not be parsed." .fatal,
  entry "S-2-1" "constants" "Missing Constant"
    "A constant is referenced but has no value." .fatal,
  entry "S-2-2" "scanner" "Unbalanced Delimiter"
    "A block was opened but never closed." .fatal,
  entry "S-3-1" "mixins" "Missing Mixin Parameter"
    "A mixin parameter has neither an argument nor a default value." .fatal,
  entry "S-3-2" "mixins" "Unknown Mixin"
    "A mixin was invoked but never defined." .info,
  entry "S-3-3" "mixins" "Recursive Mixin"
    "A mixin invokes itself, directly or indirectly." .warning,
  entry "S-3-4" "mixins" "Mixin Expansion Too Deep"
    "Mixin expansion exceeded the configured maximum depth." .fatal,
  entry "S-4-1" "conditionals" "Invalid Conditional"
    "An @if expression does not contain a comparison operator." .fatal,
  entry "S-5-1" "iteration" "Invalid Loop Bound"
    "An @for bound is not an integer." .fatal,
  entry "S-6-1" "layout" "Multiple Grid Blocks"
    "Only one @grid block is allowed per document." .fatal,
  entry "S-6-2" "layout" "Missing Grid Property"
    "An @grid block is missing a required property." .fatal,
  entry "S-7-1" "nesting" "Declarations In Grouping Rule"
    "Declarations placed directly inside a grouping rule were dropped." .warning,
  entry "S-8-1" "extensions" "Invalid Extension Syntax"
    "An extension function or property was called with invalid arguments." .fatal,
  entry "S-9-1" "urls" "Missing Image"
    "A url() target does not exist on disk." .warning]

/-- What the catalog says of a code. -/
def find? (code : String) : Option CatalogEntry := entries.find? (·.code == code)

/-- All codes. -/
def codes : List String := entries.map (·.code)

end Catalog

end Stylesheet
