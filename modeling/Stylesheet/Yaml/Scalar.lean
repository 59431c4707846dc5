import Stylesheet.Yaml.Basic

/-!
# YAML scalars

Scalars are written plainly, in quotes, or as a block of lines. Lines of
the first two are folded: a single break becomes a space, and further
breaks are kept.
-/

set_option autoImplicit false

namespace Stylesheet

namespace Yaml

/-! ### Gaps -/

/-- The blanks and breaks between two stretches of a scalar. -/
structure Gap where
  /-- The blanks, if there is no break. -/
  blanks : Text := []
  /-- The first break, unless it was escaped. -/
  first : Text := []
  /-- The breaks behind the first. -/
  others : Text := []
  /-- Whether there is a break. -/
  broken : Bool := false

/-- What a gap becomes. -/
def Gap.text (g : Gap) : Text :=
  if !g.broken then g.blanks
  else if g.first = ['\n'] then if g.others.isEmpty then [' '] else g.others
  else g.first ++ g.others

/-- Reads a gap. A tab must not stand where the indentation is still
below `indent`. -/
def Gap.scan (indent : Nat) : Nat → Gap → Cursor → Option (Gap × Cursor)
  | 0, g, c => some (g, c)
  | fuel + 1, g, c =>
    match c.head? with
    | none => some (g, c)
    | some x =>
      if isGap x then
        if g.broken && x == '\t' && c.column < indent then none
        else if g.broken then Gap.scan indent fuel g c.next
        else Gap.scan indent fuel { g with blanks := g.blanks ++ [x] } c.next
      else if isBreak x then
        if g.broken then Gap.scan indent fuel { g with others := g.others ++ [x] } c.next
        else Gap.scan indent fuel { first := [x], broken := true } c.next
      else some (g, c)

/-! ### Plain scalars -/

/-- The marks of collections in brackets. -/
def isFlowMark (x : Char) : Bool := x == ',' || x == '[' || x == ']' || x == '{' || x == '}'

/-- A stretch without blanks: up to a blank, a colon that ends a key, or,
inside brackets, a mark. -/
def stretch (flow : Bool) : Nat → Text → Cursor → Option (Text × Cursor)
  | 0, seen, c => some (seen.reverse, c)
  | fuel + 1, seen, c =>
    match c.head? with
    | none => some (seen.reverse, c)
    | some x =>
      if isGap x || isBreak x then some (seen.reverse, c)
      else if flow && x == ':' && c.test (fun y => isFlowMark y || y == '?') 1 then none
      else if (x == ':' && c.blankOrEnd 1) || (flow && isFlowMark x) then some (seen.reverse, c)
      else stretch flow fuel (x :: seen) c.next

/-- Reads a plain scalar whose further lines are indented by at least
`indent`: its text, and whether a line ended behind it. -/
def scanPlain (flow : Bool) (indent : Nat) :
    Nat → Text → Gap → Cursor → Option (Text × Bool × Cursor)
  | 0, _, _, _ => none
  | fuel + 1, value, gap, c =>
    if c.isDocumentMark || c.head? == some '#' then some (value, gap.broken, c)
    else
      match stretch flow c.ahead.length [] c with
      | none => none
      | some ([], _) => some (value, gap.broken, c)
      | some (chunk, c) =>
        let value := value ++ gap.text ++ chunk
        if c.test (fun x => isGap x || isBreak x) 0 then
          match Gap.scan indent c.ahead.length {} c with
          | none => none
          | some (gap, c) =>
            if !flow && c.column < indent then some (value, gap.broken, c)
            else scanPlain flow indent fuel value gap c
        else some (value, false, c)

/-! ### Quoted scalars -/

/-- The characters that a backslash and a letter stand for. -/
def escapes : List (Char × Char) :=
  [('0', '\x00'), ('a', '\x07'), ('b', '\x08'), ('t', '\t'), ('\t', '\t'), ('n', '\n'),
   ('v', '\x0b'), ('f', '\x0c'), ('r', '\r'), ('e', '\x1b'), (' ', ' '), ('"', '"'), ('/', '/'),
   ('\\', '\\'), ('N', '\u0085'), ('_', '\u00a0'), ('L', '\u2028'), ('P', '\u2029')]

/-- The value of a hexadecimal digit. -/
def hexValue? (x : Char) : Option Nat :=
  if isDigit x then some (x.toNat - '0'.toNat)
  else
    let n := x.toLower.toNat
    if 'a'.toNat ≤ n ∧ n ≤ 'f'.toNat then some (n - 'a'.toNat + 10) else none

/-- The character with a number in hexadecimal digits. -/
def hexCharacter? (digits : Text) : Option Char :=
  (digits.mapM hexValue?).bind fun values =>
    let n := values.foldl (fun n d => 16 * n + d) 0
    if h : n.isValidChar then some (Char.ofNatAux n h) else none

/-- Reads what follows a backslash: the character, and how many
characters were read. -/
def escape? (t : Text) : Option (Char × Nat) :=
  match t with
  | [] => none
  | x :: r =>
    let width := [('x', 2), ('u', 4), ('U', 8)].lookup x
    match width with
    | some n =>
      if r.length < n then none else (hexCharacter? (r.take n)).map fun y => (y, n + 1)
    | none => (escapes.lookup x).map fun y => (y, 1)

/-- Reads a stretch of a quoted scalar without blanks: its text, and
whether it ended in an escaped line break. -/
def quotedStretch (quote : Char) : Nat → Text → Cursor → Option (Text × Bool × Cursor)
  | 0, _, _ => none
  | fuel + 1, seen, c =>
    match c.ahead with
    | [] => some (seen.reverse, false, c)
    | x :: r =>
      if isGap x || isBreak x then some (seen.reverse, false, c)
      else if quote == '\x27' && x == quote && r.head? == some quote then
        quotedStretch quote fuel (quote :: seen) (c.skip 2)
      else if x == quote then some (seen.reverse, false, c)
      else if quote == '"' && x == '\\' then
        if r.head?.any isBreak then some (seen.reverse, true, c.skip 2)
        else match escape? r with
          | none => none
          | some (y, n) => quotedStretch quote fuel (y :: seen) (c.skip (n + 1))
      else quotedStretch quote fuel (x :: seen) c.next

/-- Reads a quoted scalar behind its opening quote. -/
def scanQuoted (quote : Char) : Nat → Text → Cursor → Option (Text × Cursor)
  | 0, _, _ => none
  | fuel + 1, value, c =>
    if c.isDocumentMark || c.ahead.isEmpty then none
    else
      match quotedStretch quote (c.ahead.length + 1) [] c with
      | none => none
      | some (chunk, escapedBreak, c) =>
        let value := value ++ chunk
        if !escapedBreak && c.head? == some quote then some (value, c.next)
        else match Gap.scan 0 c.ahead.length { broken := escapedBreak } c with
          | none => none
          | some (gap, c) => scanQuoted quote fuel (value ++ gap.text) c

/-! ### Block scalars -/

/-- How the end of a block scalar is treated. -/
inductive Chomping where
  | strip
  | clip
  | keep
  deriving DecidableEq

/-- Reads the header of a block scalar: the chomping and the indentation
asked for. -/
def blockHeader? (c : Cursor) : Option (Chomping × Option Nat × Cursor) :=
  let sign : Cursor → Chomping × Cursor := fun c =>
    match c.head? with
    | some '+' => (.keep, c.next)
    | some '-' => (.strip, c.next)
    | _ => (.clip, c)
  let digit : Cursor → Option (Option Nat × Cursor) := fun c =>
    match c.head? with
    | some x =>
      if x == '0' then none
      else if isDigit x then some (some (x.toNat - '0'.toNat), c.next)
      else some (none, c)
    | none => some (none, c)
  let read : Option (Chomping × Option Nat × Cursor) :=
    if c.test (fun x => x == '+' || x == '-') 0 then
      let (chomping, c) := sign c
      (digit c).map fun (n, c) => (chomping, n, c)
    else
      (digit c).map fun (n, c) =>
        if n.isSome then
          let (chomping, c) := sign c
          (chomping, n, c)
        else (.clip, none, c)
  match read with
  | none => none
  | some (chomping, n, c) =>
    let c := c.skipWhile isGap
    let c := if c.head? == some '#' then c.skipWhile (!isBreak ·) else c
    if c.lineEnds then some (chomping, n, c.next) else none

/-- Reads the empty lines before a line of a block scalar, and the
indentation of that line up to `indent`. Without an indentation the
deepest line decides; `deepest` is that so far. -/
def blockBreaks (indent : Option Nat) :
    Nat → Nat → Text → Cursor → Option (Text × Nat × Cursor)
  | 0, deepest, breaks, c => some (breaks, deepest, c)
  | fuel + 1, deepest, breaks, c =>
    let room := match indent with
      | some n => n - c.column
      | none => c.ahead.length
    let c := c.skip (min room (c.ahead.takeWhile (· == ' ')).length)
    let deepest := max deepest c.column
    let below := match indent with
      | some n => decide (c.column < n)
      | none => true
    if below && c.head? == some '\t' then none
    else match c.head? with
      | some x =>
        if isBreak x then blockBreaks indent fuel deepest (breaks ++ [x]) c.next
        else some (breaks, deepest, c)
      | none => some (breaks, deepest, c)

/-- Reads the lines of a block scalar. `first` is the break behind the
last line, `others` the breaks of the empty lines behind it. -/
def blockLines (literal : Bool) (indent : Nat) :
    Nat → Text → Bool → Text → Text → Cursor → Option (Text × Text × Text × Cursor)
  | 0, value, _, first, others, c => some (value, first, others, c)
  | fuel + 1, value, blankBefore, first, others, c =>
    if c.column != indent || c.ahead.isEmpty then some (value, first, others, c)
    else
      let blankNow := c.test isGap 0
      let joint :=
        if !literal && first == ['\n'] && !blankBefore && !blankNow then
          if others.isEmpty then [' '] else []
        else first
      let line := c.ahead.takeWhile (!isBreak ·)
      let c := c.skip line.length
      let first := c.ahead.take 1
      match blockBreaks (some indent) (c.ahead.length + 1) 0 [] c.next with
      | none => none
      | some (breaks, _, c) =>
        blockLines literal indent fuel (value ++ joint ++ others ++ line) blankNow first breaks c

/-- Reads a block scalar behind its mark. `parent` is the indentation of
the collection around it, absent at the top. -/
def scanBlock (literal : Bool) (parent : Option Nat) (c : Cursor) : Option (Text × Cursor) :=
  match blockHeader? c with
  | none => none
  | some (chomping, increment, c) =>
    let asked := increment.map fun n => parent.getD 0 + n
    match blockBreaks asked (c.ahead.length + 1) 0 [] c with
    | none => none
    | some (breaks, deepest, c) =>
      let least := match parent with
        | some n => n + 1
        | none => 0
      let indent := asked.getD (max (max deepest least) 1)
      match blockLines literal indent (c.ahead.length + 1) [] false [] breaks c with
      | none => none
      | some (value, first, others, c) =>
        let tail := match chomping with
          | .strip => []
          | .clip => first
          | .keep => first ++ others
        some (value ++ tail, c)

end Yaml

end Stylesheet
