import Stylesheet.FileTree
import Stylesheet.Json.Parser
import Stylesheet.Table
import Stylesheet.Xml

/-!
# Constant feeds

A feed is a file of constants that other programs write. A file whose
name ends in `.json` holds an object of strings, numbers and truth
values. Any other file is XML: in each `constant` element, a `name` and a
`value` element.
-/

set_option autoImplicit false

namespace Stylesheet

/-- What can be wrong with a feed. -/
inductive FeedError where
  | unreadable (path : Path) (cause : ReadError)
  | xml
  | json
  /-- A value that is neither text, nor a number, nor a truth value. -/
  | unsupported (name : Text)
  deriving Repr, DecidableEq

/-- The wording of a feed error. -/
def FeedError.message : FeedError → String
  | unreadable path cause => "failed to read " ++ path.toString ++ ": " ++ cause.message
  | xml => "invalid XML"
  | json => "invalid JSON"
  | unsupported name => "`" ++ String.ofList name ++ "` must be a string, number or boolean"

namespace Feed

/-! ### JSON -/

/-- The constant that a JSON value stands for. -/
def constant? : Json → Option Text
  | .string t => some t
  | .number t => some t
  | .bool true => some "true".toList
  | .bool false => some "false".toList
  | _ => none

/-- The constants of an object, or the first name whose value is none. -/
def ofMembers : List (Text × Json) → Except FeedError (List (Text × Text))
  | [] => .ok []
  | (name, value) :: rest =>
    match constant? value with
    | none => .error (.unsupported name)
    | some t => (ofMembers rest).map ((name, t) :: ·)

/-- Reads a feed in JSON. -/
def ofJson (t : Text) : Except FeedError (Table Text) :=
  match Json.parse? t with
  | some (.object members) => (ofMembers (Table.ofPairs members).entries).map Table.ofPairs
  | _ => .error .json

/-! ### XML -/

/-- The part of a constant that text belongs to. -/
inductive Field where
  | none
  | name
  | value
  deriving Repr, DecidableEq

/-- What is known while a feed is read. -/
structure Progress where
  field : Field := .none
  name : Text := []
  value : Text := []
  constants : Table Text := .empty

/-- Adds text to the part that is being read. -/
def Progress.add (p : Progress) (t : Text) : Progress :=
  match p.field with
  | .none => p
  | .name => { p with name := p.name ++ t }
  | .value => { p with value := p.value ++ t }

/-- One step through a document. -/
def Progress.step (p : Progress) : Xml.Event → Progress
  | .opening name =>
    if name = "name".toList then { p with field := .name }
    else if name = "value".toList then { p with field := .value }
    else if name = "constant".toList then { p with field := .none, name := [], value := [] }
    else { p with field := .none }
  | .text t => p.add t
  | .data t => p.add t
  | .closing name =>
    let constants :=
      if name = "constant".toList ∧ !Text.blank p.name then
        p.constants.set (Text.trim p.name) (Text.trim p.value)
      else p.constants
    { p with field := .none, constants }
  | .other => p

/-- Reads a feed in XML. -/
def ofXml (t : Text) : Except FeedError (Table Text) :=
  match Xml.read? t with
  | some events => .ok (events.foldl Progress.step {}).constants
  | none => .error .xml

/-- Reads a feed. -/
def load (tree : FileTree) (path : Path) : Except FeedError (Table Text) :=
  match tree.read path with
  | .error e => .error (.unreadable path e)
  | .ok (t, _) => if path.hasExtension "json".toList then ofJson t else ofXml t

end Feed

end Stylesheet
