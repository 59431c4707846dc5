import Stylesheet.Literal

/-!
# Matching delimiters

Blocks, argument lists and conditions are found by one means: from an
opening delimiter the pieces of the text are walked with a counter until
the delimiter that closes it. `Delimiter.close?` cuts a text there;
`findClose` is the same by positions.
-/

set_option autoImplicit false

namespace Stylesheet

/-- The families of delimiters that nest. -/
inductive Delimiter where
  /-- Curly braces, around blocks. -/
  | brace
  /-- Round parentheses, around arguments. -/
  | paren
  deriving Repr, DecidableEq

namespace Delimiter

/-- The character that opens. -/
def opening : Delimiter → Char
  | brace => '{'
  | paren => '('

/-- The character that closes. -/
def closing : Delimiter → Char
  | brace => '}'
  | paren => ')'

end Delimiter

/-- What can be wrong with the delimiters of a text. Position and line
are those of the delimiter to blame. -/
inductive ScanError where
  /-- No closing delimiter matches this opening one. -/
  | unclosed (delimiter : Char) (offset line : Nat)
  /-- This closing delimiter closes nothing. -/
  | unexpectedClose (delimiter : Char) (offset line : Nat)
  deriving Repr, DecidableEq

/-- The wording of a scan error. -/
def ScanError.message : ScanError → String
  | unclosed delimiter _ line =>
    "`" ++ toString delimiter ++ "` opened on line " ++ toString line ++ " is never closed"
  | unexpectedClose delimiter _ line =>
    "unexpected `" ++ toString delimiter ++ "` on line " ++ toString line

namespace Delimiter

/-- Cuts pieces at the closing delimiter, `depth` delimiters being open:
the pieces before it and the pieces behind it. A closing delimiter with
none open counts as the match too. -/
def closePieces? (d : Delimiter) : Nat → List Piece → Option (List Piece × List Piece)
  | _, [] => none
  | depth, p :: ps =>
    if p = .plain d.closing ∧ depth ≤ 1 then some ([], ps)
    else
      let depth' :=
        if p = .plain d.opening then depth + 1
        else if p = .plain d.closing then depth - 1
        else depth
      match closePieces? d depth' ps with
      | none => none
      | some (inside, rest) => some (p :: inside, rest)

/-- Cuts a text that begins with an opening delimiter at the delimiter
that closes it. The first part still begins with the opening one. -/
def close? (d : Delimiter) (t : Text) : Option (Text × Text) :=
  (closePieces? d 0 (pieces t)).map fun (inside, rest) => (textOf inside, textOf rest)

/-- The pieces up to the closing delimiter, the delimiter, and the others are
all there are. -/
theorem closePieces?_eq {d : Delimiter} {depth : Nat} {ps inside rest : List Piece}
    (h : closePieces? d depth ps = some (inside, rest)) :
    ps = inside ++ .plain d.closing :: rest := by
  induction ps generalizing depth inside rest with
  | nil => simp [closePieces?] at h
  | cons p ps ih =>
    rw [closePieces?] at h
    split at h
    · rename_i hp
      simp only [Option.some.injEq, Prod.mk.injEq] at h
      simp [← h.1, ← h.2, hp.1]
    · simp only at h
      split at h
      · cases h
      · rename_i hrec
        simp only [Option.some.injEq, Prod.mk.injEq] at h
        rw [← h.1, ← h.2, ih hrec]
        rfl

/-- The cut loses the closing delimiter and nothing else. -/
theorem close?_eq {d : Delimiter} {t inside rest : Text} (h : d.close? t = some (inside, rest)) :
    t = inside ++ d.closing :: rest := by
  simp only [close?, Option.map_eq_some_iff, Prod.mk.injEq] at h
  obtain ⟨⟨a, b⟩, hc, ha, hb⟩ := h
  have := congrArg textOf (closePieces?_eq hc)
  rw [text_pieces] at this
  simp only [textOf_append, textOf_cons, Piece.text, ha, hb] at this
  simpa using this

/-- Both parts of a text that is cut at a closing delimiter are shorter. -/
theorem length_lt_of_close? {d : Delimiter} {t inside rest : Text}
    (h : d.close? t = some (inside, rest)) : inside.length + rest.length < t.length := by
  have := congrArg List.length (close?_eq h)
  simp only [List.length_append, List.length_cons] at this
  omega

end Delimiter

/-- The position of the delimiter that closes the one at a position. -/
def findClose (t : Text) (start : Nat) (d : Delimiter) : Except ScanError Nat :=
  let (front, back) := Text.splitAtByte start t
  match d.close? back with
  | some (inside, _) => .ok (Text.size front + Text.size inside)
  | none => .error (.unclosed d.opening start (Text.lineOf t start))

end Stylesheet
