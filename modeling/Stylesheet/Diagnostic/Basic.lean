import Stylesheet.Diagnostic.Severity
import Stylesheet.Json.Basic
import Stylesheet.Path

/-!
# Diagnostics

A diagnostic tells the author of a stylesheet what happened: a title, a
severity, perhaps a code of the catalog, the problem, bullet points,
hints, and the file it is about. It can be printed over several lines
(`toText`), on one (`summary`), or as JSON.
-/

set_option autoImplicit false

namespace Stylesheet

/-- The kinds of bullet points. -/
inductive DetailKind where
  | error
  | info
  | note
  deriving Repr, DecidableEq

namespace DetailKind

/-- The mark in front of a bullet point. -/
def bullet : DetailKind → String
  | error => "✖"
  | info => "ℹ"
  | note => "•"

/-- The name in data. -/
def name : DetailKind → String
  | error => "error"
  | info => "info"
  | note => "note"

/-- The kind with a given name. -/
def ofName? (s : String) : Option DetailKind := [error, info, note].find? (·.name == s)

end DetailKind

/-- A bullet point. -/
structure Detail where
  kind : DetailKind
  content : String
  deriving Repr, DecidableEq

/-- The file, and perhaps the line, that a diagnostic is about. -/
structure Location where
  path : Path
  line : Option Nat := none
  deriving Repr, DecidableEq

/-- A location as printed. -/
def Location.toText (l : Location) : String :=
  match l.line with
  | some n => l.path.toString ++ ":" ++ toString n
  | none => l.path.toString

/-- A diagnostic. -/
structure Diagnostic where
  severity : Severity
  title : String
  code : Option String := none
  problem : Option String := none
  details : List Detail := []
  /-- Advice, in the form of questions. -/
  hints : List String := []
  location : Option Location := none
  deriving Repr, DecidableEq

namespace Diagnostic

/-- The diagnostic about a file, if it is not about one yet. -/
def located (d : Diagnostic) (p : Path) : Diagnostic :=
  match d.location with
  | some _ => d
  | none => { d with location := some { path := p } }

/-- The diagnostic raised to fatal. What it was before becomes a note. -/
def promoted (d : Diagnostic) : Diagnostic :=
  if d.severity = .fatal then d
  else
    let note := "Reported as " ++ d.severity.lowerLabel ++ " (level "
      ++ toString d.severity.level ++ "), promoted by the error threshold"
    { d with severity := .fatal, details := d.details ++ [⟨.note, note⟩] }

/-- The diagnostic on one line. -/
def summary (d : Diagnostic) : String :=
  let head := match d.code with
    | some code => "[" ++ code ++ "] " ++ d.title
    | none => d.title
  match d.problem with
  | some problem => head ++ ": " ++ problem
  | none => head

/-- The diagnostic over several lines, each one ended. -/
def toText (d : Diagnostic) : String :=
  let head := match d.code with
    | some code => d.severity.label ++ " [" ++ code ++ "]: " ++ d.title
    | none => d.severity.label ++ ": " ++ d.title
  let lines := [head] ++ d.problem.toList
    ++ d.details.map (fun x => x.kind.bullet ++ " " ++ x.content)
    ++ d.hints.map (fun h => "? " ++ h)
    ++ d.location.toList.map (fun l => "  at " ++ l.toText)
  String.join (lines.map (· ++ "\n"))

/-! ### As JSON -/

/-- A bullet point as JSON. -/
def detailToJson (x : Detail) : Json :=
  .object [("content".toList, .ofString x.content), ("kind".toList, .ofString x.kind.name)]

/-- A location as JSON; the line only when it is known. -/
def locationToJson (l : Location) : Json :=
  .object (l.line.toList.map (fun n => ("line".toList, .ofNat n))
    ++ [("path".toList, .string l.path.text)])

/-- The diagnostic as JSON, its members in alphabetical order and absent
parts left out. -/
def toJson (d : Diagnostic) : Json :=
  .object (d.code.toList.map (fun c => ("code".toList, .ofString c))
    ++ (if d.details.isEmpty then []
        else [("details".toList, .array (d.details.map detailToJson))])
    ++ (if d.hints.isEmpty then []
        else [("hints".toList, .array (d.hints.map .ofString))])
    ++ [("level".toList, .ofNat d.severity.level)]
    ++ d.location.toList.map (fun l => ("location".toList, locationToJson l))
    ++ d.problem.toList.map (fun p => ("problem".toList, .ofString p))
    ++ [("severity".toList, .ofString d.severity.name), ("title".toList, .ofString d.title)])

/-- A string member. -/
def stringMember? (name : String) (j : Json) : Option String :=
  (j.member? name).bind fun v => v.text?.map String.ofList

/-- Reads a bullet point. -/
def detailOfJson? (j : Json) : Option Detail := do
  let kind ← (stringMember? "kind" j).bind DetailKind.ofName?
  let content ← stringMember? "content" j
  return ⟨kind, content⟩

/-- Reads a location. -/
def locationOfJson? (j : Json) : Option Location := do
  let path ← (j.member? "path").bind Json.text?
  match j.member? "line" with
  | none | some .null => return { path := ⟨path⟩ }
  | some (.number t) => do
    let n ← (String.ofList t).toNat?
    return { path := ⟨path⟩, line := some n }
  | some _ => none

/-- The items of an array member, none if it is absent. -/
def itemsMember (name : String) (j : Json) : List Json :=
  match j.member? name with
  | some (.array items) => items
  | _ => []

/-- Reads a diagnostic. Its level follows from its severity. -/
def ofJson? (j : Json) : Option Diagnostic := do
  let severity ← (stringMember? "severity" j).bind Severity.ofName?
  let title ← stringMember? "title" j
  let details ← (itemsMember "details" j).mapM detailOfJson?
  let hints ← (itemsMember "hints" j).mapM fun h => h.text?.map String.ofList
  let location ← match j.member? "location" with
    | none | some .null => some none
    | some l => (locationOfJson? l).map some
  return {
    severity, title, details, hints, location
    code := stringMember? "code" j
    problem := stringMember? "problem" j }

end Diagnostic

end Stylesheet
