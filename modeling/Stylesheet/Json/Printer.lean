import Stylesheet.Json.Basic

/-!
# Printing JSON

One line, without blanks. Quotes, backslashes and control characters are
escaped, the five common controls by their letters and the others by
four hexadecimal digits.
-/

set_option autoImplicit false

namespace Stylesheet

namespace Json

/-- A hexadecimal digit. -/
def hexDigit (n : Nat) : Char := (Nat.toDigits 16 n).headD '0'

/-- A character inside a JSON string. -/
def escape (c : Char) : Text :=
  if c = '"' then ['\\', '"']
  else if c = '\\' then ['\\', '\\']
  else if c = '\n' then ['\\', 'n']
  else if c = '\t' then ['\\', 't']
  else if c = '\r' then ['\\', 'r']
  else if c = '\x08' then ['\\', 'b']
  else if c = '\x0c' then ['\\', 'f']
  else if c.toNat < 32 then
    ['\\', 'u', '0', '0', hexDigit (c.toNat / 16), hexDigit (c.toNat % 16)]
  else [c]

/-- A JSON string. -/
def quote (t : Text) : Text := '"' :: (t.flatMap escape ++ ['"'])

mutual

/-- A value on one line. -/
def print : Json → Text
  | .null => "null".toList
  | .bool b => if b then "true".toList else "false".toList
  | .number t => t
  | .string t => quote t
  | .array items => '[' :: (printItems items ++ [']'])
  | .object members => '{' :: (printMembers members ++ ['}'])

/-- The items of an array, with commas between them. -/
def printItems : List Json → Text
  | [] => []
  | [v] => print v
  | v :: rest => print v ++ ',' :: printItems rest

/-- The members of an object, with commas between them. -/
def printMembers : List (Text × Json) → Text
  | [] => []
  | [(name, v)] => quote name ++ ':' :: print v
  | (name, v) :: rest => quote name ++ ':' :: (print v ++ ',' :: printMembers rest)

end

end Json

end Stylesheet
