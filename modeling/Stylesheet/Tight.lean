import Stylesheet.Literal

/-!
# Tight text

Blanks next to a comma mean nothing. `tighten` drops those next to some
characters, outside literals: all blanks before such a character, and
the ASCII blanks behind it.
-/

set_option autoImplicit false

namespace Stylesheet

/-- Drops the plain ASCII blanks at the front. -/
def dropBlankPieces : List Piece → List Piece
  | .plain c :: ps => if isAsciiBlank c then dropBlankPieces ps else .plain c :: ps
  | ps => ps

/-- Dropping pieces makes no row longer, which is why `tightenPieces`
terminates. -/
theorem length_dropBlankPieces_le (ps : List Piece) :
    (dropBlankPieces ps).length ≤ ps.length := by
  fun_induction dropBlankPieces ps with
  | case1 c ps _ ih => simp only [List.length_cons]; omega
  | case2 => simp
  | case3 => simp

/-- Tightens pieces. `pending` is the text since the last character of
`around`, nearest character first: its end is dropped if it is blank and
such a character follows. -/
def tightenPieces (around : List Char) (pending : Text) (ps : List Piece) : Text :=
  match ps with
  | [] => pending.reverse
  | .plain c :: rest =>
    if c ∈ around then
      Text.trimEnd pending.reverse ++ c :: tightenPieces around [] (dropBlankPieces rest)
    else tightenPieces around (c :: pending) rest
  | p :: rest => tightenPieces around (p.text.reverse ++ pending) rest
termination_by ps.length
decreasing_by
  · have := length_dropBlankPieces_le rest
    simp only [List.length_cons]
    omega
  · simp
  · simp

/-- Drops the blanks next to each of `around`. -/
def tighten (around : List Char) (t : Text) : Text := tightenPieces around [] (pieces t)

end Stylesheet
