import Stylesheet.Text.Basic

/-!
# Paths

A path is kept and printed as it was written. Two paths are the same
when their components are: repeated slashes, slashes at the end and `.`
in the middle make no difference. A `.` at the front of a relative path
is a component.
-/

set_option autoImplicit false

namespace Stylesheet

/-- A path as written. -/
structure Path where
  text : Text
  deriving Repr, DecidableEq

namespace Path

/-- The path with a given spelling. -/
def of (s : String) : Path := ⟨s.toList⟩

/-- The spelling of a path. -/
def toString (p : Path) : String := String.ofList p.text

instance : ToString Path := ⟨toString⟩

/-- What a path is made of. -/
inductive Component where
  | root
  | here
  | up
  | name (n : Text)
  deriving Repr, DecidableEq

/-- Whether a path starts at the root. -/
def isAbsolute (p : Path) : Bool := p.text.head? == some '/'

/-- The stretches of a path between slashes, empty ones included. -/
def stretches (p : Path) : List Text := Text.splitWhere (· == '/') p.text

/-- The component that a stretch is, with `.` and nothing standing for
none. -/
def component? (stretch : Text) : Option Component :=
  if stretch = [] ∨ stretch = ['.'] then none
  else if stretch = ['.', '.'] then some .up
  else some (.name stretch)

/-- The components of a path. -/
def components (p : Path) : List Component :=
  let inner := p.stretches.filterMap component?
  if p.isAbsolute then .root :: inner
  else if p.stretches.head? = some ['.'] then .here :: inner
  else inner

/-- Whether two paths have the same components. -/
def same (p q : Path) : Bool := p.components == q.components

/-- Takes stretches that are no components from the end. The first
stretch is a component when it is `.` and the path is relative. -/
def dropIdle (absolute : Bool) (stretches : List Text) : List Text :=
  match stretches.reverse.dropWhile fun s => (component? s).isNone with
  | [] => if !absolute && stretches.head? == some ['.'] then [['.']] else []
  | s => s.reverse

/-- The text of some stretches of a path. -/
def ofStretches (absolute : Bool) (stretches : List Text) : Path :=
  if absolute && stretches.all List.isEmpty then ⟨['/']⟩
  else ⟨Text.joinWith ['/'] stretches⟩

/-- The path without its last component. The root and the empty path
have none. -/
def parent? (p : Path) : Option Path :=
  match dropIdle p.isAbsolute p.stretches with
  | [] => none
  | used => some (ofStretches p.isAbsolute (dropIdle p.isAbsolute used.dropLast))

/-- The last component, if it is a name. -/
def fileName? (p : Path) : Option Text :=
  match p.components.getLast? with
  | some (.name n) => some n
  | _ => none

/-- Cuts a file name at its last point, unless only the first character
is one. -/
def splitExtension (name : Text) : Text × Option Text :=
  let extension := (name.reverse.takeWhile (· != '.')).reverse
  match (name.reverse.dropWhile (· != '.')).reverse with
  | [] => (name, none)
  | ['.'] => (name, none)
  | stem => (stem.dropLast, some extension)

/-- What follows the last point of the file name. -/
def extension? (p : Path) : Option Text := p.fileName?.bind fun n => (splitExtension n).2

/-- Whether the extension is this one, capitals or not. -/
def hasExtension (p : Path) (extension : Text) : Bool :=
  match p.extension? with
  | some e => Text.sameLetters e extension
  | none => false

/-- The path with another extension for its file name. -/
def withExtension (p : Path) (extension : Text) : Path :=
  match p.fileName? with
  | none => p
  | some n =>
    let used := dropIdle p.isAbsolute p.stretches
    ⟨Text.joinWith ['/'] (used.dropLast ++ [(splitExtension n).1]) ++ '.' :: extension⟩

/-- A path taken from another one. One slash stands between the two,
and an absolute path is taken from nowhere. -/
def join (p q : Path) : Path :=
  if q.isAbsolute then q
  else if p.text.isEmpty || p.text.getLast? == some '/' then ⟨p.text ++ q.text⟩
  else ⟨p.text ++ '/' :: q.text⟩

/-- The components of a path below another one. -/
def below? (p base : Path) : Option (List Component) :=
  base.components.isPrefixOf? p.components

/-- The directory that a document lies in; its name alone means the
working directory. -/
def directory (p : Path) : Path := p.parent?.getD (.of ".")

end Path

end Stylesheet
