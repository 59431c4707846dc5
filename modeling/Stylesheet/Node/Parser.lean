import Stylesheet.Condition.Basic
import Stylesheet.Delimiter
import Stylesheet.Node.Basic
import Stylesheet.TopLevel

/-!
# Reading stylesheets

`Node.parse` walks the pieces of a text. What stands between two
semicolons or blocks is a segment: before a brace it is the header of a
rule, before a semicolon or at the end it is a statement. Semicolons and
braces inside round or square brackets do not count. A comment is a node
only at the start of a segment and belongs to the segment otherwise.

Positions in errors count from the start of the innermost block.
-/

set_option autoImplicit false

namespace Stylesheet

/-- Why a text is no stylesheet. -/
inductive ParseError where
  | scan (e : ScanError)
  /-- The first four bytes behind an `@import` end inside a
  character. -/
  | broken
  deriving Repr, DecidableEq

namespace Node

/-- Whether a byte position is a place between characters. -/
def isPlace (offset : Nat) (t : Text) : Bool := Text.size (Text.splitAtByte offset t).1 == offset

/-- Reads what follows the keyword of an import: `url(…)`, a string, or
a word, and then the media. -/
def parseImport (behind : Text) : Except BrokenCharacter Node :=
  let t := Text.trim behind
  if 4 ≤ Text.size t && !isPlace 4 t then .error {}
  else
    let (url, media) :=
      match Text.afterLetters? "url(".toList t with
      | some r =>
        match Delimiter.paren.close? ('(' :: r) with
        | some (inside, rest) => (unquote (inside.drop 1), rest)
        | none => (t, [])
      | none =>
        match t with
        | [] => ([], [])
        | c :: _ =>
          if isQuote c then
            match Literal.take? t with
            | some (p, rest) => (unquote p.text, rest)
            | none => (t, [])
          else (t.takeWhile (!isBlank ·), (t.dropWhile (!isBlank ·)).drop 1)
    .ok (.importUrl url (Text.collapse media))

/-- The node that a segment is, if it is not blank: an import, another
at-statement, a declaration, or any other statement. -/
def ofSegment (segment : Text) : Except BrokenCharacter (Option Node) :=
  let t := Text.trim segment
  match t with
  | [] => .ok none
  | c :: _ =>
    match Text.afterLetters? "@import".toList t with
    | some r => (parseImport r).map some
    | none =>
      if c = '@' then .ok (some (.statement (Text.collapse t)))
      else match splitTopOnce ':' t with
        | some (name, value) => .ok (some (.declaration (Text.trim name) (Text.trim value)))
        | none => .ok (some (.statement t))

/-- How deep in round and square brackets a character leads. -/
def bracketDepth (depth : Nat) (c : Char) : Nat :=
  if c = '(' ∨ c = '[' then depth + 1
  else if c = ')' ∨ c = ']' then depth - 1
  else depth

/-- Reads pieces of a block. `seen` is the text of the block before them
and `segment` that of the segment, both nearest character first; `depth`
round and square brackets are open. -/
def parsePieces (seen : Text) (depth : Nat) (segment : Text) (ps : List Piece) :
    Except ParseError (List Node) :=
  match ps with
  | [] =>
    match ofSegment segment.reverse with
    | .error _ => .error .broken
    | .ok node => .ok node.toList
  | .comment t :: rest =>
    if Text.blank segment then
      match parsePieces (t.reverse ++ seen) depth [] rest with
      | .error e => .error e
      | .ok nodes => .ok (.comment t :: nodes)
    else parsePieces (t.reverse ++ seen) depth (t.reverse ++ segment) rest
  | .string t :: rest => parsePieces (t.reverse ++ seen) depth (t.reverse ++ segment) rest
  | .plain c :: rest =>
    if c = '{' ∧ depth = 0 then
      match _h : Delimiter.brace.closePieces? 0 (.plain c :: rest) with
      | none => .error (.scan (.unclosed '{' (Text.size seen) (Text.newlines seen + 1)))
      | some (inside, after) =>
        match parsePieces [] 0 [] (inside.drop 1) with
        | .error e => .error e
        | .ok children =>
          match parsePieces ('}' :: ((textOf inside).reverse ++ seen)) 0 [] after with
          | .error e => .error e
          | .ok nodes => .ok (.rule (Text.collapse segment.reverse) children :: nodes)
    else if c = ';' ∧ depth = 0 then
      match ofSegment segment.reverse with
      | .error _ => .error .broken
      | .ok node =>
        match parsePieces (c :: seen) 0 [] rest with
        | .error e => .error e
        | .ok nodes => .ok (node.toList ++ nodes)
    else if c = '}' then
      .error (.scan (.unexpectedClose '}' (Text.size seen) (Text.newlines seen + 1)))
    else parsePieces (c :: seen) (bracketDepth depth c) (c :: segment) rest
termination_by ps.length
decreasing_by
  all_goals try (simp; done)
  · have := congrArg List.length (Delimiter.closePieces?_eq _h)
    simp only [List.length_cons, List.length_append, List.length_drop] at this ⊢
    omega
  · have := congrArg List.length (Delimiter.closePieces?_eq _h)
    simp only [List.length_cons, List.length_append] at this ⊢
    omega

/-- Reads a stylesheet. -/
def parse (t : Text) : Except ParseError (List Node) := parsePieces [] 0 [] (pieces t)

end Node

end Stylesheet
