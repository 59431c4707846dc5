import Stylesheet.Text.Basic

/-!
# Nodes

A stylesheet is a forest of nodes: comments, imports, declarations,
other statements, and rules that hold nodes themselves.
-/

set_option autoImplicit false

namespace Stylesheet

/-- An item of a stylesheet. -/
inductive Node where
  /-- A comment with its marks. -/
  | comment (t : Text)
  /-- An `@import`, by its URL and the media it is for. -/
  | importUrl (url media : Text)
  | declaration (name value : Text)
  /-- A statement without a block, such as `@charset "utf-8"`, without
  its semicolon. -/
  | statement (t : Text)
  /-- A header with a block. -/
  | rule (header : Text) (children : List Node)
  deriving Repr, BEq

namespace Node

/-- Whether a node has a block. -/
def isRule : Node → Bool
  | rule _ _ => true
  | _ => false

/-- An import as it is written. -/
def renderImport (url media : Text) : Text :=
  "@import '".toList ++ url
    ++ (if media.isEmpty then ['\x27'] else '\x27' :: ' ' :: media)

mutual

/-- A node in the fewest characters, each item ended. -/
def compact : Node → Text
  | comment t => t
  | importUrl url media => renderImport url media ++ [';']
  | declaration name value => name ++ ':' :: (value ++ [';'])
  | statement t => t ++ [';']
  | rule header children => header ++ '{' :: (compactAll children ++ ['}'])

/-- Nodes in the fewest characters, one after the other. -/
def compactAll : List Node → Text
  | [] => []
  | n :: rest => compact n ++ compactAll rest

end

end Node

end Stylesheet
