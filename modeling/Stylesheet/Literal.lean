import Stylesheet.Text.Basic

/-!
# Literals and pieces

String literals and comments are opaque to every scanner of the
library: a brace inside `"}"` closes nothing. `Literal.take?` takes the
literal that a text begins with, and `pieces` reads a whole text as a
row of pieces, each one plain character or one literal. Scanners then
recurse on pieces and never look inside a literal.

A string literal runs to its closing quote, to the end of its line if
none comes before it (the line feed stays outside), or to the end of
the text; a backslash takes the next character with it, a line feed
too. A comment runs from `/*` to the next `*/`, or to the end.

Main statement: `text_pieces`, the pieces set one after another are the
text.
-/

set_option autoImplicit false

namespace Stylesheet

/-- The straight single quote. -/
def apostrophe : Char := '\x27'

/-- The characters that open a string literal. -/
def isQuote (c : Char) : Bool := c == '"' || c == apostrophe

/-- A text is a row of pieces. -/
inductive Piece where
  /-- One character outside literals. -/
  | plain (c : Char)
  /-- A string literal with its quotes. -/
  | string (t : Text)
  /-- A comment with its marks. -/
  | comment (t : Text)
  deriving Repr, DecidableEq

/-- The characters of a piece. -/
def Piece.text : Piece → Text
  | .plain c => [c]
  | .string t => t
  | .comment t => t

namespace Literal

/-- Behind the opening quote `q`: the rest of the literal, and the text
after it. -/
def takeString (q : Char) : Text → Text × Text
  | [] => ([], [])
  | [c] =>
    if c == '\n' then ([], [c]) else ([c], [])
  | c :: d :: r =>
    if c == '\\' then
      let (inside, rest) := takeString q r
      (c :: d :: inside, rest)
    else if c == '\n' then ([], c :: d :: r)
    else if c == q then ([c], d :: r)
    else
      let (inside, rest) := takeString q (d :: r)
      (c :: inside, rest)

/-- Behind `/*`: the rest of the comment, and the text after it. -/
def takeComment : Text → Text × Text
  | [] => ([], [])
  | [c] => ([c], [])
  | c :: d :: r =>
    if c == '*' && d == '/' then ([c, d], r)
    else
      let (inside, rest) := takeComment (d :: r)
      (c :: inside, rest)

/-- The literal that a text begins with, and the text after it. -/
def take? : Text → Option (Piece × Text)
  | [] => none
  | c :: r =>
    if isQuote c then
      let (inside, rest) := takeString c r
      some (.string (c :: inside), rest)
    else match c, r with
      | '/', '*' :: r' =>
        let (inside, rest) := takeComment r'
        some (.comment ('/' :: '*' :: inside), rest)
      | _, _ => none

/-- A string and what stands behind it are the text. -/
theorem takeString_append (q : Char) (t : Text) :
    (takeString q t).1 ++ (takeString q t).2 = t := by
  fun_induction takeString q t <;> simp_all

/-- A comment and what stands behind it are the text. -/
theorem takeComment_append (t : Text) : (takeComment t).1 ++ (takeComment t).2 = t := by
  fun_induction takeComment t <;> simp_all

/-- Taking a literal loses nothing. -/
theorem text_append_of_take? {t rest : Text} {p : Piece} (h : take? t = some (p, rest)) :
    p.text ++ rest = t := by
  unfold take? at h
  split at h
  · cases h
  · rename_i c r
    split at h
    · have := takeString_append c r
      simp only [Option.some.injEq, Prod.mk.injEq] at h
      rw [← h.1, ← h.2]
      simpa [Piece.text] using this
    · split at h
      · rename_i r' _
        have := takeComment_append r'
        simp only [Option.some.injEq, Prod.mk.injEq] at h
        rw [← h.1, ← h.2]
        simpa [Piece.text] using this
      · cases h

/-- A literal is not empty. -/
theorem text_ne_nil_of_take? {t rest : Text} {p : Piece} (h : take? t = some (p, rest)) :
    p.text ≠ [] := by
  unfold take? at h
  split at h
  · cases h
  · split at h
    · simp only [Option.some.injEq, Prod.mk.injEq] at h
      simp [← h.1, Piece.text]
    · split at h
      · simp only [Option.some.injEq, Prod.mk.injEq] at h
        simp [← h.1, Piece.text]
      · cases h

/-- So what stands behind it is shorter than the text. -/
theorem length_lt_of_take? {t rest : Text} {p : Piece} (h : take? t = some (p, rest)) :
    rest.length < t.length := by
  have htext := congrArg List.length (text_append_of_take? h)
  have hne := List.length_pos_iff.mpr (text_ne_nil_of_take? h)
  simp only [List.length_append] at htext
  omega

end Literal

/-- Reads a text as a row of pieces. -/
def pieces (t : Text) : List Piece :=
  match t with
  | [] => []
  | c :: r =>
    match _h : Literal.take? (c :: r) with
    | some (p, rest) => p :: pieces rest
    | none => .plain c :: pieces r
termination_by t.length
decreasing_by
  · exact Literal.length_lt_of_take? _h
  · simp

/-- The text that a row of pieces stands for. -/
def textOf (ps : List Piece) : Text := ps.flatMap Piece.text

/-- No pieces spell nothing. -/
@[simp] theorem textOf_nil : textOf [] = [] := rfl

/-- One piece and then the others. -/
@[simp] theorem textOf_cons (p : Piece) (ps : List Piece) :
    textOf (p :: ps) = p.text ++ textOf ps := by
  simp [textOf]

/-- One row and then another. -/
@[simp] theorem textOf_append (ps qs : List Piece) : textOf (ps ++ qs) = textOf ps ++ textOf qs := by
  simp [textOf]

/-- Reading a text as pieces loses nothing. -/
theorem text_pieces (t : Text) : textOf (pieces t) = t := by
  fun_induction pieces t with
  | case1 => rfl
  | case2 c r p rest h ih => rw [textOf_cons, ih, Literal.text_append_of_take? h]
  | case3 c r h ih => rw [textOf_cons, ih]; rfl

/-! ### Spans -/

/-- A stretch of a text, by the byte positions of its two ends. -/
structure Span where
  start : Nat
  stop : Nat
  deriving Repr, DecidableEq

/-- Whether a position lies in a span. -/
def Span.contains (s : Span) (offset : Nat) : Bool := s.start ≤ offset && offset < s.stop

/-- The spans of the literals in a row of pieces that begins at a
position. -/
def spansFrom (offset : Nat) : List Piece → List Span
  | [] => []
  | .plain c :: ps => spansFrom (offset + c.utf8Size) ps
  | .string t :: ps => ⟨offset, offset + Text.size t⟩ :: spansFrom (offset + Text.size t) ps
  | .comment t :: ps => ⟨offset, offset + Text.size t⟩ :: spansFrom (offset + Text.size t) ps

/-- The spans of all literals of a text, in order. -/
def literalSpans (t : Text) : List Span := spansFrom 0 (pieces t)

/-- Whether a position lies in one of some spans. The spans are sorted,
so only the first one that ends behind the position is asked. -/
def insideAny (spans : List Span) (offset : Nat) : Bool :=
  match spans.dropWhile (·.stop ≤ offset) with
  | [] => false
  | s :: _ => s.start ≤ offset

end Stylesheet
