import Stylesheet.Literal

/-!
# Removing comments

A `//` comment starts at the beginning of the text or behind an ASCII
blank, and only outside literals, so that `url(http://…)` keeps its
slashes. It ends before the line feed, which stays. Comments of the form
`/* … */` are literals and are dropped by `stripBlockComments` alone.
-/

set_option autoImplicit false

namespace Stylesheet

/-- Removes line comments from a text. `start` says whether one may begin
at its front. -/
def stripLineCommentsFrom (start : Bool) (t : Text) : Text :=
  match t with
  | [] => []
  | c :: r =>
    if start && ['/', '/'].isPrefixOf (c :: r) then
      stripLineCommentsFrom false (r.dropWhile (· != '\n'))
    else
      match _h : Literal.take? (c :: r) with
      | some (p, rest) =>
        p.text ++ stripLineCommentsFrom ((p.text.getLast?.map isAsciiBlank).getD false) rest
      | none => c :: stripLineCommentsFrom (isAsciiBlank c) r
termination_by t.length
decreasing_by
  · have := (List.dropWhile_suffix (l := r) (· != '\n')).length_le
    simp only [List.length_cons]
    omega
  · exact Literal.length_lt_of_take? _h
  · simp

/-- The text without its `//` comments. -/
def stripLineComments (t : Text) : Text := stripLineCommentsFrom true t

/-- Whether a piece is a comment. -/
def Piece.isComment : Piece → Bool
  | .comment _ => true
  | _ => false

/-- The text without its `/* … */` comments. -/
def stripBlockComments (t : Text) : Text := textOf ((pieces t).filter (!·.isComment))

end Stylesheet
