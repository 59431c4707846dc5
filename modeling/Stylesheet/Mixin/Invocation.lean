import Stylesheet.Mixin.Definition

/-!
# Mixin invocations

`+name(arguments);` or `+name;` puts a mixin in place. With arguments
the semicolon may be left out; a bare `+name` without one is no
invocation. Signs inside literals, and signs that do not stand at a
boundary, mean nothing.
-/

set_option autoImplicit false

namespace Stylesheet

namespace Mixin

/-- An invocation and where it stands. -/
structure Invocation where
  name : Text
  args : List Text
  /-- The position of the sign. -/
  start : Nat
  /-- The position behind the invocation. -/
  stop : Nat
  deriving Repr, DecidableEq

namespace Invocation

/-- The arguments between two parentheses. -/
def arguments (inside : Text) : List Text :=
  if Text.blank inside then [] else (splitTop ',' inside).map unquote

/-- The invocation at a place outside literals, with its length in
characters. -/
def take? (behind ahead : Text) : Except ScanError (Option (Invocation × Nat)) :=
  match ahead with
  | '+' :: r =>
    let name := r.takeWhile isNameChar
    if name.isEmpty || !isBoundary behind then .ok none
    else
      let start := Text.size behind
      let token := '+' :: name
      let blanks := (r.dropWhile isNameChar).takeWhile isBlank
      match (r.dropWhile isNameChar).dropWhile isBlank with
      | ';' :: _ =>
        let taken := token ++ blanks ++ [';']
        .ok (some (⟨name, [], start, start + Text.size taken⟩, taken.length))
      | '(' :: rest =>
        match Delimiter.paren.close? ('(' :: rest) with
        | none =>
          let front := token ++ blanks
          .error (.unclosed '(' (start + Text.size front)
            (Text.newlines behind + Text.newlines front + 1))
        | some (inside, after) =>
          let call := token ++ blanks ++ inside ++ [')']
          let taken := match after.dropWhile isBlank with
            | ';' :: _ => call ++ after.takeWhile isBlank ++ [';']
            | _ => call
          .ok (some (⟨name, arguments (inside.drop 1), start, start + Text.size taken⟩,
            taken.length))
      | _ => .ok none
  | _ => .ok none

/-- The invocation at a place, given the literals of the text. -/
def at? (spans : List Span) (behind ahead : Text) : Except ScanError (Option (Invocation × Nat)) :=
  if ahead.head? = some '+' ∧ insideAny spans (Text.size behind) then .ok none
  else take? behind ahead

/-- Takes a text apart at its invocations. -/
def cut (t : Text) : Except ScanError (Cut Invocation) := Cut.tryScan (at? (literalSpans t)) t

/-- The invocations of a text, from left to right. -/
def find (t : Text) : Except ScanError (List Invocation) := (cut t).map Cut.items

end Invocation

end Mixin

end Stylesheet
