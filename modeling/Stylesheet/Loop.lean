import Stylesheet.Block
import Stylesheet.Compilation
import Stylesheet.Decimal.Integer

/-!
# Loops

`@for $i from 1 to 3 { … }` stands for its body, once for every value of
the variable. The bounds may hold placeholders. In each round the
variable becomes a constant, the loops inside the body are expanded, and
then the placeholders of the body are filled; the constant stays when
the loop is over.

Bodies are shorter than the text around them, which is why `expandLoops`
ends.
-/

set_option autoImplicit false

namespace Stylesheet

namespace Loop

/-- The characters of a loop variable. Capitals and small letters are not
told apart in a loop header, and two characters beyond ASCII have `s` or
`k` as their small letter. -/
def isVariableChar (c : Char) : Bool := isNameChar c || c == '\u017f' || c == '\u212a'

/-- Whether a character can stand in the upper bound. -/
def isBoundChar (c : Char) : Bool := c != '{' && c != ';' && c != '}'

/-- Reads the upper bound with `to` in front of it. It takes all up to a
brace or semicolon; if nothing but blanks is there, the last blank is the
bound. Gives the bound and how many characters were read. -/
def upper? (t : Text) : Option (Text × Nat) :=
  let gap := t.takeWhile isBlank
  match Text.afterLetters? "to".toList (t.dropWhile isBlank) with
  | none => none
  | some r =>
    let blanks := r.takeWhile isBlank
    let bound := (r.dropWhile isBlank).takeWhile isBoundChar
    if gap.isEmpty then none
    else if !bound.isEmpty && !blanks.isEmpty then
      some (bound, gap.length + 2 + blanks.length + bound.length)
    else if bound.isEmpty && 2 ≤ blanks.length then
      some (blanks.drop (blanks.length - 1), gap.length + 2 + blanks.length)
    else none

/-- Reads the two bounds: the lower one is the shortest text on one line
that an upper bound follows. -/
def bounds? : Text → Option (Text × Text × Nat)
  | [] => none
  | c :: r =>
    if c = '\n' then none
    else match upper? r with
      | some (upper, n) => some ([c], upper, n + 1)
      | none =>
        match bounds? r with
        | some (lower, upper, n) => some (c :: lower, upper, n + 1)
        | none => none

/-- Reads the keyword of a loop and its variable: the text behind and the
variable. -/
def takeVariable? (t : Text) : Option (Text × Text) :=
  match Text.afterLetters? "@for".toList t with
  | none => none
  | some r =>
    match r.dropWhile isBlank with
    | '$' :: s =>
      let name := s.takeWhile isVariableChar
      if (r.head?.any isBlank) && !name.isEmpty then some (name, s.dropWhile isVariableChar)
      else none
    | _ => none

/-- The header of a loop. The groups are the variable and the two
bounds. -/
def header : Pattern := fun t =>
  match takeVariable? t with
  | none => none
  | some (name, r) =>
    match Text.afterLetters? "from".toList (r.dropWhile isBlank) with
    | none => none
    | some s =>
      if !(r.head?.any isBlank) then none
      else
        let read := fun behind =>
          (bounds? behind).map fun (lower, upper, n) =>
            ⟨t.length - behind.length + n, [some name, some lower, some upper]⟩
        Text.pastBlanks? 1 read s

/-- The search for loops. -/
def search : Block.Search := { pattern := header }

/-- The diagnostic of a bound that is no whole number. -/
def invalidBoundDiagnostic (which : String) (value : Text) : Diagnostic :=
  { severity := .fatal, title := "Invalid loop bound", code := some "S-5-1",
    problem := some ("The " ++ which ++ " bound `" ++ String.ofList value
      ++ "` is not an integer") }

/-- The value of a bound. -/
def bound (which : String) (raw : Text) : Compile Int := do
  let value := Text.trim (← Compile.interpolate (Text.trim raw))
  match Decimal.readInt64? value with
  | some n => return n
  | none => Compile.abort (invalidBoundDiagnostic which value)

/-- The body of a loop for `count` values of the variable, from a first
one on. -/
def rounds (name : Text) (body : Compile Text) : Nat → Int → Compile Text
  | 0, _ => return []
  | count + 1, i => do
    Compile.setConstant name (toString i).toList
    let t ← Compile.interpolate (← body)
    return t ++ (← rounds name body count (i + 1))

/-- One loop, given what its body expands to. -/
def expandBlock (b : Block) (body : Compile Text) : Compile Text := do
  let lower ← bound "start" (b.groupText 2)
  let upper ← bound "end" (b.groupText 3)
  rounds (b.groupText 1) body (upper + 1 - lower).toNat lower

end Loop

/-- Expands the loops of a text. -/
def expandLoops (t : Text) : Compile Text :=
  match _h : Block.cut Loop.search t with
  | .error e => throw (.scan e)
  | .ok cut => cut.attach.fillM fun b => Loop.expandBlock b.1 (expandLoops b.1.body)
termination_by t.length
decreasing_by exact Block.length_body_lt_of_cut _h b.1 b.2

end Stylesheet
