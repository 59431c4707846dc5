import Stylesheet.Literal

/-!
# Separators at the top level

Argument lists, property lists and selectors are divided by separators,
but only by those outside brackets and literals. `splitTop` cuts a text
at all of them, `splitTopOnce` at the first. Brackets that close nothing
are ignored, so the depth never falls below zero.
-/

set_option autoImplicit false

namespace Stylesheet

/-- Puts a text in front of the first part. -/
def extendFirst (t : Text) : List Text → List Text
  | [] => [t]
  | part :: parts => (t ++ part) :: parts

/-- Cuts pieces at a separator, `depth` brackets of the three kinds being
open. -/
def splitTopPieces (separator : Char) : Nat → List Piece → List Text
  | _, [] => [[]]
  | depth, .plain c :: ps =>
    if c = '(' ∨ c = '[' ∨ c = '{' then extendFirst [c] (splitTopPieces separator (depth + 1) ps)
    else if c = ')' ∨ c = ']' ∨ c = '}' then
      extendFirst [c] (splitTopPieces separator (depth - 1) ps)
    else if c = separator ∧ depth = 0 then [] :: splitTopPieces separator depth ps
    else extendFirst [c] (splitTopPieces separator depth ps)
  | depth, p :: ps => extendFirst p.text (splitTopPieces separator depth ps)

/-- The parts of a text between the separators at its top level. -/
def splitTop (separator : Char) (t : Text) : List Text := splitTopPieces separator 0 (pieces t)

/-- Cuts pieces at the first target, `depth` round and square brackets
being open. -/
def splitTopOncePieces (target : Char) : Nat → List Piece → Option (Text × Text)
  | _, [] => none
  | depth, .plain c :: ps =>
    if c = target ∧ depth = 0 then some ([], textOf ps)
    else
      let depth' :=
        if c = '(' ∨ c = '[' then depth + 1
        else if c = ')' ∨ c = ']' then depth - 1
        else depth
      match splitTopOncePieces target depth' ps with
      | none => none
      | some (front, back) => some (c :: front, back)
  | depth, p :: ps =>
    match splitTopOncePieces target depth ps with
    | none => none
    | some (front, back) => some (p.text ++ front, back)

/-- The text before the first target at the top level, and the text
behind it. Braces do not count as brackets here. -/
def splitTopOnce (target : Char) (t : Text) : Option (Text × Text) :=
  splitTopOncePieces target 0 (pieces t)

/-- The position of the first target at the top level. -/
def findTop (target : Char) (t : Text) : Option Nat :=
  (splitTopOnce target t).map fun (front, _) => Text.size front

/-- Drops quotes and blanks from both ends. -/
def unquote (t : Text) : Text := Text.trimWhere (fun c => isQuote c || isBlank c) t

/-- One `name: value` entry. Without a colon or without a name there is
none. -/
def property? (entry : Text) : Option (Text × Text) :=
  match splitTopOnce ':' (Text.trim entry) with
  | none => none
  | some (name, value) =>
    if (Text.trim name).isEmpty then none else some (Text.trim name, unquote value)

/-- The `name: value;` entries of a body, in order. -/
def properties (body : Text) : List (Text × Text) := (splitTop ';' body).filterMap property?

end Stylesheet
