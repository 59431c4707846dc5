import Stylesheet.Node.Basic
import Stylesheet.Selector

/-!
# Flattening

Plain stylesheets have no nested rules. `Node.flatten` gives every rule a
block of its own, under the selectors composed from the headers around
it, a rule before the rules inside it. A grouping rule, whose header
holds an entry of the skip list, starts afresh: the rules inside it are
flattened without the selectors around it, and the result is wrapped in
its header once. Declarations directly inside a grouping rule have no
selector and are dropped. Imports are gathered apart.
-/

set_option autoImplicit false

namespace Stylesheet

/-- A flattened stylesheet. -/
structure Flat where
  /-- The imports as written, in order. -/
  imports : List Text
  /-- All blocks and statements. -/
  body : Text
  /-- The headers of grouping rules that lost declarations. -/
  dropped : List Text
  deriving Repr, DecidableEq

namespace Flat

/-- Nothing. -/
def empty : Flat := ⟨[], [], []⟩

/-- Some text of the body. -/
def ofBody (t : Text) : Flat := ⟨[], t, []⟩

/-- One after the other. -/
def append (a b : Flat) : Flat := ⟨a.imports ++ b.imports, a.body ++ b.body, a.dropped ++ b.dropped⟩

instance : Append Flat := ⟨append⟩

/-- The stylesheet as text, imports first. -/
def render (f : Flat) : Text := f.imports.flatten ++ f.body

end Flat

namespace Node

/-- Whether a header belongs to a grouping rule. -/
def isGrouping (skip : List Text) (header : Text) : Bool :=
  skip.any fun s => !s.isEmpty && Text.contains s header

/-- Whether a node belongs to the block of the rule it is in. -/
def isOwn : Node → Bool
  | comment _ => true
  | declaration _ _ => true
  | statement _ => true
  | _ => false

/-- Whether a node needs a selector. -/
def needsSelector : Node → Bool
  | declaration _ _ => true
  | statement _ => true
  | _ => false

/-- A block. -/
def block (header body : Text) : Text := header ++ '{' :: (body ++ ['}'])

/-- The blocks of a rule itself: one under its header at the top, one
for each selector below other rules, none if it holds rules only. -/
def ownBlocks (outer : List Text) (header : Text) (children : List Node) : Text :=
  let own := children.filter isOwn
  if own.isEmpty && children.any isRule then []
  else if outer.isEmpty then block header (compactAll own)
  else (Selector.compose outer header).flatMap fun selector => block selector (compactAll own)

mutual

/-- What a node inside rules gives apart from text of its own. `outer`
are the selectors of the rules around it. -/
def flattenNested (skip : List Text) (outer : List Text) : Node → Flat
  | importUrl url media => ⟨[renderImport url media ++ [';']], [], []⟩
  | rule header children =>
    if isGrouping skip header then
      let inner := flattenGroup skip children
      { imports := inner.imports
        body := block header inner.body
        dropped := inner.dropped ++ (if children.any needsSelector then [header] else []) }
    else
      .ofBody (ownBlocks outer header children)
        ++ flattenChildren skip (Selector.compose outer header) children
  | _ => .empty

/-- What the children of a rule give apart from its own block. -/
def flattenChildren (skip : List Text) (outer : List Text) : List Node → Flat
  | [] => .empty
  | n :: rest => flattenNested skip outer n ++ flattenChildren skip outer rest

/-- What the children of a grouping rule give. -/
def flattenGroup (skip : List Text) : List Node → Flat
  | [] => .empty
  | comment t :: rest => .ofBody t ++ flattenGroup skip rest
  | n :: rest => flattenNested skip [] n ++ flattenGroup skip rest

end

/-- Flattens a stylesheet. -/
def flatten (skip : List Text) : List Node → Flat
  | [] => .empty
  | n :: rest =>
    (if n.isOwn then .ofBody n.compact else flattenNested skip [] n) ++ flatten skip rest

end Node

end Stylesheet
