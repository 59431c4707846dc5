import Stylesheet.Node.Basic
import Stylesheet.Value

/-!
# Printing stylesheets

`Node.pretty` writes one item a line, two spaces deeper in each block,
with an empty line before every rule at the top but the first item.
`Node.compressed` writes as few characters as the options allow: no
blanks that mean nothing, no semicolon behind the last declaration of a
block, and comments only if they are wanted. Both start from the same
nodes.
-/

set_option autoImplicit false

namespace Stylesheet

namespace Node

/-! ### Readable output -/

/-- The blanks before a line. -/
def indent (depth : Nat) : Text := List.replicate (2 * depth) ' '

mutual

/-- A node on lines of its own. -/
def prettyNode (depth : Nat) : Node → Text
  | comment t => indent depth ++ t ++ ['\n']
  | importUrl url media => indent depth ++ renderImport url media ++ [';', '\n']
  | statement t => indent depth ++ Text.collapse t ++ [';', '\n']
  | declaration name value =>
    indent depth ++ name ++ [':', ' '] ++ Text.collapse value ++ [';', '\n']
  | rule header children =>
    indent depth ++ header ++ [' ', '{', '\n'] ++ prettyNodes (depth + 1) children
      ++ indent depth ++ ['}', '\n']

/-- Nodes one below the other. -/
def prettyNodes (depth : Nat) : List Node → Text
  | [] => []
  | n :: rest => prettyNode depth n ++ prettyNodes depth rest

end

/-- A node that is not the first at the top. -/
def prettyFollowing (n : Node) : Text := (if n.isRule then ['\n'] else []) ++ prettyNode 0 n

/-- A stylesheet in lines. -/
def pretty : List Node → Text
  | [] => []
  | n :: rest => prettyNode 0 n ++ rest.flatMap prettyFollowing

/-! ### Compressed output -/

/-- How an item of a block is ended. -/
inductive Ending where
  /-- By itself. -/
  | closed
  /-- By a semicolon. -/
  | always
  /-- By a semicolon, unless it is the last item. -/
  | unlessLast
  deriving Repr, DecidableEq

/-- Items one after the other, each ended. -/
def joinItems : List (Text × Ending) → Text
  | [] => []
  | (t, ending) :: rest =>
    let mark := match ending with
      | .closed => false
      | .always => true
      | .unlessLast => !rest.isEmpty
    t ++ ((if mark then [';'] else []) ++ joinItems rest)

mutual

/-- The text and the ending of a node. -/
def compressedItem (options : FormatOptions) : Node → Text × Ending
  | comment t => (t, .closed)
  | importUrl url media => (renderImport url (tighten [','] media), .always)
  | statement t => (Text.collapse t, .always)
  | declaration name value => (name ++ ':' :: Value.compress options name value, .unlessLast)
  | rule header children =>
    let (items, comments) := compressedItems options [] children
    (tighten [',', '>'] header ++ '{' :: (joinItems items ++ comments ++ ['}']), .closed)

/-- The items of some nodes. Comments go in front of the next item;
`comments` are those that wait for one. Those behind the last item come
apart. -/
def compressedItems (options : FormatOptions) (comments : Text) :
    List Node → List (Text × Ending) × Text
  | [] => ([], comments)
  | comment t :: rest =>
    compressedItems options (if options.preserveComments then comments ++ t else comments) rest
  | n :: rest =>
    let (t, ending) := compressedItem options n
    let (items, trailing) := compressedItems options [] rest
    ((comments ++ t, ending) :: items, trailing)

end

/-- A stylesheet in few characters. -/
def compressed (options : FormatOptions) (nodes : List Node) : Text :=
  let (items, comments) := compressedItems options [] nodes
  joinItems items ++ comments

/-- A stylesheet as the options ask for it. -/
def format (options : FormatOptions) (nodes : List Node) : Text :=
  if options.compress then compressed options nodes else pretty nodes

end Node

end Stylesheet
