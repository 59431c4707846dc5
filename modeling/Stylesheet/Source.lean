import Stylesheet.Comment
import Stylesheet.Error
import Stylesheet.FileTree

/-!
# Sources

The text of a document before compilation. Line comments, which plain
stylesheets do not have, are gone from it.
-/

set_option autoImplicit false

namespace Stylesheet

/-- A document to be compiled. -/
structure Source where
  path : Path
  text : Text
  modified : Option Nat
  deriving Repr

namespace Source

/-- A document from its text. -/
def ofText (path : Path) (text : Text) : Source := ⟨path, stripLineComments text, none⟩

/-- Reads a document. -/
def load (tree : FileTree) (path : Path) : Except Error Source :=
  match tree.read path with
  | .ok (text, modified) => .ok ⟨path, stripLineComments text, modified⟩
  | .error e => .error (.unreadable path e.message)

end Source

end Stylesheet
