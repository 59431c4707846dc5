import Stylesheet.Config.Basic
import Stylesheet.Decimal.Integer
import Stylesheet.FileTree
import Stylesheet.Yaml.Parser

/-!
# Reading configurations

A configuration is a YAML mapping. Every setting may be left out and has
its default then; names that are no settings are passed over; a setting
that is given twice is an error. Relative paths in a configuration file
start at the directory of that file.
-/

set_option autoImplicit false

namespace Stylesheet

namespace Yaml

/-! ### Settings from YAML -/

/-- A text: any scalar. -/
def text? : Yaml → Option Text
  | .scalar t _ _ => some t
  | _ => none

/-- The text of a scalar that may mean something of a kind: without
quotes, or as a block with the tag of that kind. -/
def bare? (kind : String) : Yaml → Option Text
  | .scalar t .plain _ => some t
  | .scalar t .literal (some tag) => if tag = standardTag kind then some t else none
  | _ => none

/-- A truth value. -/
def bool? (y : Yaml) : Option Bool :=
  (bare? "bool" y).bind fun t =>
    let word := String.ofList t
    if word ∈ ["true", "True", "TRUE"] then some true
    else if word ∈ ["false", "False", "FALSE"] then some false
    else none

/-- The digits of a number in a base. -/
def radix? (base : Nat) (digits : Text) : Option Nat :=
  if digits.isEmpty then none
  else
    (digits.mapM fun c => (hexValue? c).filter (· < base)).map
      (·.foldl (fun n d => base * n + d) 0)

/-- A number that is not negative: decimal without zeros in front, or in
base 16, 8 or 2 behind a mark. A plus sign is allowed. -/
def unsigned? (t : Text) : Option Nat :=
  let digits := match t with
    | '+' :: r => r
    | r => r
  match digits with
  | '0' :: 'x' :: r => radix? 16 r
  | '0' :: 'o' :: r => radix? 8 r
  | '0' :: 'b' :: r => radix? 2 r
  | ['0'] => some 0
  | '0' :: _ => none
  | _ => radix? 10 digits

/-- A number below a bound. -/
def nat? (bound : Nat) (y : Yaml) : Option Nat :=
  (bare? "int" y).bind fun t => (unsigned? t).filter (· < bound)

/-- The words for null. -/
def isNull (t : Text) : Bool := String.ofList t ∈ ["~", "null", "Null", "NULL"]

/-- Something that may be null: nothing or a word for null, without
quotes and tag. The tag of null admits only its words. -/
def optional? {α : Type} (read : Yaml → Option α) (y : Yaml) : Option (Option α) :=
  match y with
  | .scalar t .plain none => if t.isEmpty || isNull t then some none else (read y).map some
  | .scalar t .plain (some tag) =>
    if tag = standardTag "null" then if isNull t then some none else none
    else (read y).map some
  | _ => (read y).map some

/-- A list of things. -/
def list? {α : Type} (read : Yaml → Option α) : Yaml → Option (List α)
  | .sequence ys => ys.mapM read
  | .scalar [] .plain _ => some []
  | _ => none

/-- Names with texts, later ones overriding. -/
def table? : Yaml → Option (Table Text)
  | .mapping entries =>
    (entries.mapM fun (k, v) => do return (← text? k, ← text? v)).map Table.ofPairs
  | .scalar [] .plain _ => some .empty
  | _ => none

/-- A path. -/
def path? (y : Yaml) : Option Path := (text? y).map Path.mk

/-- Adds a setting, unless it is there or has no meaning. -/
def addField (names : List String) (fields : List (String × Yaml)) (entry : Yaml × Yaml) :
    Option (List (String × Yaml)) :=
  match text? entry.1 with
  | none => none
  | some key =>
    let name := String.ofList key
    if !(name ∈ names) then some fields
    else if (fields.lookup name).isSome then none
    else some ((name, entry.2) :: fields)

/-- The settings of a group, by name or, in a sequence, by their order. -/
def fields? (names : List String) : Yaml → Option (List (String × Yaml))
  | .mapping entries => entries.foldlM (addField names) []
  | .sequence ys => if names.length < ys.length then none else some (names.zip ys)
  | .scalar [] .plain _ => some []
  | _ => none

/-- A setting of a group, or its default. -/
def setting? {α : Type} (fields : List (String × Yaml)) (name : String)
    (read : Yaml → Option α) (default : α) : Option α :=
  match fields.lookup name with
  | some y => read y
  | none => some default

end Yaml

/-! ### The configuration -/

namespace Config

open Yaml in
/-- The settings of the formatter. -/
def format? (y : Yaml) : Option FormatOptions := do
  let fields ← fields? ["compress", "preserve_comments", "rgb_to_hex", "font_weights_to_numbers",
    "remove_empty_measurements"] y
  return {
    compress := ← setting? fields "compress" bool? false
    preserveComments := ← setting? fields "preserve_comments" bool? true
    rgbToHex := ← setting? fields "rgb_to_hex" bool? true
    fontWeightsToNumbers := ← setting? fields "font_weights_to_numbers" bool? true
    removeEmptyMeasurements := ← setting? fields "remove_empty_measurements" bool? true }

open Yaml in
/-- The constants and the feed. -/
def constants? (y : Yaml) : Option (Table Text × Option Path) := do
  let fields ← fields? ["global", "feed"] y
  return (← setting? fields "global" table? .empty,
    ← setting? fields "feed" (optional? path?) none)

open Yaml in
/-- The directory of mixins. -/
def autoInclude? (y : Yaml) : Option (Option Path) := do
  setting? (← fields? ["auto_include"] y) "auto_include" (optional? path?) none

open Yaml in
/-- The skip list. -/
def skip? (y : Yaml) : Option (List Text) := do
  setting? (← fields? ["skip"] y) "skip" (list? text?) defaultSkip

open Yaml in
/-- A whole configuration. -/
def ofYaml? (y : Yaml) : Option Config := do
  let fields ← fields? ["error_threshold", "document_root", "include_paths", "disable_flags",
    "flags", "constants", "mixins", "nesting", "max_mixin_depth", "formatter"] y
  let (globals, feed) ← setting? fields "constants" constants? (.empty, none)
  return {
    errorThreshold := ← setting? fields "error_threshold" (nat? (Nat.pow 2 8)) 0
    documentRoot := ← setting? fields "document_root" (optional? path?) none
    includePaths := ← setting? fields "include_paths" (list? path?) []
    disableFlags := ← setting? fields "disable_flags" bool? false
    flags := ← setting? fields "flags" (list? text?) []
    globals, feed
    autoInclude := ← setting? fields "mixins" autoInclude? none
    skip := ← setting? fields "nesting" skip? defaultSkip
    maxMixinDepth := ← setting? fields "max_mixin_depth" (nat? (Nat.pow 2 64)) 64
    format := ← setting? fields "formatter" format? {} }

/-- Checks the range of the threshold. -/
def validate (c : Config) : Except ConfigError Config :=
  if thresholdMax < c.errorThreshold then .error (.threshold c.errorThreshold) else .ok c

/-- Reads a configuration. A blank text is the default one. `path` is
where it comes from. -/
def ofText (path : Option Path) (t : Text) : Except ConfigError Config :=
  let config? :=
    if Text.blank t then some {}
    else match Yaml.parse? t with
      | none => none
      | some none => some {}
      | some (some y) => ofYaml? y
  match config? with
  | none => .error (.malformed path)
  | some config => config.validate

/-- The configuration with its relative paths taken from a directory. -/
def relativeTo (base : Path) (c : Config) : Config :=
  { c with
    includePaths := c.includePaths.map base.join
    feed := c.feed.map base.join
    autoInclude := c.autoInclude.map base.join
    documentRoot := c.documentRoot.map base.join }

/-- Reads a configuration file. -/
def load (tree : FileTree) (path : Path) : Except ConfigError Config :=
  match tree.read path with
  | .error e => .error (.unreadable path e.message)
  | .ok (t, _) =>
    match ofText (some path) t with
    | .error e => .error e
    | .ok config =>
      match path.parent? with
      | some base => .ok (config.relativeTo base)
      | none => .ok config

end Config

end Stylesheet
