import Stylesheet.Block
import Stylesheet.Table
import Stylesheet.TopLevel

/-!
# Mixin definitions

`=name(params) { template }` defines a mixin. The sign stands at the
start of the text or behind a blank, a semicolon or a brace, so that
`a=b` in a selector is no definition. The parameter list may hold one
more level of parentheses.
-/

set_option autoImplicit false

namespace Stylesheet

namespace Mixin

/-- A parameter, with the value it has when no argument is given. -/
structure Param where
  name : Text
  default : Option Text
  deriving Repr, DecidableEq

/-- A mixin. -/
structure Definition where
  name : Text
  params : List Param
  template : Text
  deriving Repr, DecidableEq

/-- Whether a definition or an invocation may stand behind a text, which
is given nearest character first. -/
def isBoundary : Text → Bool
  | [] => true
  | c :: _ => c ∈ [' ', '\t', '\n', '\r', ';', '{', '}']

/-- Reads one parameter: `name` or `name=default`, the name with or
without its sign. -/
def Param.ofText (t : Text) : Param :=
  let (name, default) := match Text.splitOnce '=' t with
    | some (name, default) => (name, some (unquote default))
    | none => (t, none)
  { name := (Text.trim name).dropWhile (· == '$'), default }

/-- Reads a parameter list. -/
def paramsOf (list : Text) : List Param :=
  (((splitTop ',' list).map Text.trim).filter (!·.isEmpty)).map Param.ofText

/-- The text up to the parenthesis that closes a parameter list, and the
text behind it. `nested` says whether the scan is inside the second
level; there is no third. -/
def closeParams? (nested : Bool) : Text → Option (Text × Text)
  | [] => none
  | c :: r =>
    if c = ')' ∧ nested = false then some ([], r)
    else if c = '(' ∧ nested = true then none
    else
      let inside := if c = '(' then true else if c = ')' then false else nested
      match closeParams? inside r with
      | some (front, rest) => some (c :: front, rest)
      | none => none

/-- The header of a definition: the sign, the name, and the parameter
list if there is one. The groups are the name and the list. -/
def header : Pattern := fun t =>
  match t with
  | '=' :: r =>
    let name := r.takeWhile isNameChar
    if name.isEmpty then none
    else
      let blanks := (r.dropWhile isNameChar).takeWhile isBlank
      let front := 1 + name.length + blanks.length
      match (r.dropWhile isNameChar).dropWhile isBlank with
      | '(' :: rest =>
        match closeParams? false rest with
        | some (list, _) => some ⟨front + list.length + 2, [some name, some list]⟩
        | none => some ⟨front, [some name, none]⟩
      | _ => some ⟨front, [some name, none]⟩
  | _ => none

/-- The search for definitions. -/
def definitions : Block.Search := { pattern := header, accept := isBoundary }

/-- The definition that a block is. -/
def Definition.ofBlock (b : Block) : Definition where
  name := b.groupText 1
  params := paramsOf (b.groupText 2)
  template := b.body

/-- Adds a definition; a later one of the same name takes the place of
the earlier one. -/
def define (table : Table Definition) (d : Definition) : Table Definition := table.set d.name d

end Mixin

end Stylesheet
