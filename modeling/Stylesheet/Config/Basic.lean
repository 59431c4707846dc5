import Stylesheet.Path
import Stylesheet.Table

/-!
# Configuration

What the user can set, with its defaults. The threshold turns milder
diagnostics into aborts; the document root switches URL rewriting on;
the skip list names the rules that are never nested into selectors.
-/

set_option autoImplicit false

namespace Stylesheet

/-- How the output is written. All but the first apply to compressed
output only. -/
structure FormatOptions where
  compress : Bool := false
  preserveComments : Bool := true
  rgbToHex : Bool := true
  fontWeightsToNumbers : Bool := true
  removeEmptyMeasurements : Bool := true
  deriving Repr, DecidableEq

/-- Headers that hold one of these texts belong to grouping rules. -/
def defaultSkip : List Text := ["@media".toList, "@supports".toList, "keyframes".toList]

/-- The settings of the compiler. -/
structure Config where
  /-- Diagnostics at or below this level abort a document. -/
  errorThreshold : Nat := 0
  /-- The directory that URLs are made absolute against. -/
  documentRoot : Option Path := none
  /-- Directories searched for included files, after the directory of
  the including file. -/
  includePaths : List Path := []
  /-- Ignores every flag. -/
  disableFlags : Bool := false
  /-- Flags that are always on. -/
  flags : List Text := []
  /-- Constants of every document. -/
  globals : Table Text := .empty
  /-- A file of further constants. -/
  feed : Option Path := none
  /-- A directory whose files are appended to every document. -/
  autoInclude : Option Path := none
  /-- The skip list. -/
  skip : List Text := defaultSkip
  /-- How deep mixins may nest. -/
  maxMixinDepth : Nat := 64
  format : FormatOptions := {}

/-- The greatest threshold that a configuration may ask for. -/
def Config.thresholdMax : Nat := 3

/-- What can be wrong with a configuration. -/
inductive ConfigError where
  /-- The file cannot be read. -/
  | unreadable (path : Path) (cause : String)
  /-- The text is no configuration. -/
  | malformed (path : Option Path)
  /-- The threshold is above the greatest one. -/
  | threshold (n : Nat)
  deriving Repr, DecidableEq

/-- The wording of a configuration error. -/
def ConfigError.message : ConfigError → String
  | unreadable path cause => "Failed to read config file " ++ path.toString ++ ": " ++ cause
  | malformed none => "Invalid config"
  | malformed (some path) => "Invalid config in " ++ path.toString
  | threshold n => "error_threshold must be between 0 and 3, got " ++ toString n

end Stylesheet
