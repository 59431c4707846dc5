import Stylesheet.Text.Basic

/-!
# YAML values

What a YAML document holds, and the cursor with which its text is read.
-/

set_option autoImplicit false

namespace Stylesheet

/-- How a scalar is written: without quotes, in quotes, or as a block
whose lines are kept or folded. -/
inductive Yaml.Style where
  | plain
  | quoted
  | literal
  | folded
  deriving Repr, DecidableEq

/-- A YAML value. Scalars keep their text; how it is written and its tag
decide what it can mean. -/
inductive Yaml where
  | scalar (text : Text) (style : Yaml.Style) (tag : Option Text)
  | sequence (items : List Yaml)
  | mapping (entries : List (Yaml × Yaml))
  /-- An alias inside the value that it stands for. -/
  | cycle
  deriving Repr, BEq

namespace Yaml

/-- A value that was left out. -/
def absent : Yaml := .scalar [] .plain none

/-- The tag of a kind of values that the standard knows. -/
def standardTag (kind : String) : Text := "tag:yaml.org,2002:".toList ++ kind.toList

/-- Line breaks, once all common ones have become newlines. -/
def isBreak (c : Char) : Bool := c == '\n' || c == '\u2028' || c == '\u2029'

/-- The blanks inside a line. -/
def isGap (c : Char) : Bool := c == ' ' || c == '\t'

/-- Characters that a document may hold. -/
def isAllowed (c : Char) : Bool :=
  let n := c.toNat
  n == 0x09 || n == 0x0A || n == 0x0D || (0x20 ≤ n && n ≤ 0x7E) || n == 0x85
    || (0xA0 ≤ n && n != 0xFFFE && n != 0xFFFF)

/-- Writes every line break but two rare ones as a newline. -/
def unifyBreaks : Text → Text
  | [] => []
  | '\r' :: '\n' :: r => '\n' :: unifyBreaks r
  | c :: r => (if c = '\r' ∨ c = '\u0085' then '\n' else c) :: unifyBreaks r

/-- A place in a document. -/
structure Cursor where
  ahead : Text
  /-- How many characters come before. -/
  index : Nat := 0
  line : Nat := 0
  column : Nat := 0

namespace Cursor

/-- The next character. -/
def head? (c : Cursor) : Option Char := c.ahead.head?

/-- Goes past one character. -/
def next (c : Cursor) : Cursor :=
  match c.ahead with
  | [] => c
  | x :: r =>
    if isBreak x then { ahead := r, index := c.index + 1, line := c.line + 1, column := 0 }
    else { c with ahead := r, index := c.index + 1, column := c.column + 1 }

/-- Goes past some characters. -/
def skip (c : Cursor) : Nat → Cursor
  | 0 => c
  | n + 1 => c.next.skip n

/-- Whether the character at a distance exists and satisfies a test. -/
def test (c : Cursor) (p : Char → Bool) (distance : Nat) : Bool := (c.ahead[distance]?).any p

/-- Whether a blank, a line break or the end comes at a distance. -/
def blankOrEnd (c : Cursor) (distance : Nat) : Bool :=
  match c.ahead[distance]? with
  | none => true
  | some x => isGap x || isBreak x

/-- Whether a line break or the end comes next. -/
def lineEnds (c : Cursor) : Bool :=
  match c.head? with
  | none => true
  | some x => isBreak x

/-- Whether a mark of three characters stands at the start of a line. -/
def isMark (c : Cursor) (mark : String) : Bool :=
  c.column == 0 && mark.toList.isPrefixOf c.ahead && c.blankOrEnd 3

/-- Whether a document starts or ends here. -/
def isDocumentMark (c : Cursor) : Bool := c.isMark "---" || c.isMark "..."

/-- Goes past the characters that satisfy a test. -/
def skipWhile (p : Char → Bool) (c : Cursor) : Cursor := c.skip (c.ahead.takeWhile p).length

end Cursor

end Yaml

end Stylesheet
