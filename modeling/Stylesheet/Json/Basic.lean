import Stylesheet.Text.Basic

/-!
# JSON values

JSON carries constants in and diagnostics out. A number is kept as the
text by which it is printed. Members of an object keep their order; a
name given twice keeps its first place and its last value.
-/

set_option autoImplicit false

namespace Stylesheet

/-- A JSON value. -/
inductive Json where
  | null
  | bool (b : Bool)
  /-- A number, by its printed text. -/
  | number (t : Text)
  | string (t : Text)
  | array (items : List Json)
  | object (members : List (Text × Json))
  deriving Repr

namespace Json

/-- A string value. -/
def ofString (s : String) : Json := .string s.toList

/-- A whole number. -/
def ofNat (n : Nat) : Json := .number (Nat.toDigits 10 n)

/-- Sets a member: in place if the name is there, else at the end. -/
def setMember {α : Type} (name : Text) (value : α) : List (Text × α) → List (Text × α)
  | [] => [(name, value)]
  | (n, v) :: rest => if n = name then (n, value) :: rest else (n, v) :: setMember name value rest

/-- A member of an object. -/
def member? (name : String) : Json → Option Json
  | .object members => members.lookup name.toList
  | _ => none

/-- The text of a string value. -/
def text? : Json → Option Text
  | .string t => some t
  | _ => none

end Json

end Stylesheet
