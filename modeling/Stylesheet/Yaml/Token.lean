import Stylesheet.Yaml.Scalar

/-!
# YAML tokens

A document is first cut into tokens. Indentation opens and closes block
collections, which is why the scanner keeps a stack of indentations. A
key of a mapping shows itself only by the colon behind it, so the place
of every token that could begin a key is remembered, and the tokens of
the key are put in when the colon comes. Such a key stands on one line
and has at most 1024 characters.
-/

set_option autoImplicit false

namespace Stylesheet

namespace Yaml

/-- The tokens of a document. -/
inductive Token where
  /-- The version that a document asks for. -/
  | version (major minor : Nat)
  /-- The text that a handle of tags stands for. -/
  | handle (name text : Text)
  | documentStart
  | documentEnd
  | blockSequence
  | blockMapping
  | blockEnd
  | flowSequence
  | flowSequenceEnd
  | flowMapping
  | flowMappingEnd
  | blockEntry
  | flowEntry
  | key
  | value
  | alias (name : Text)
  | anchor (name : Text)
  /-- A tag: its handle, which is empty for a tag written out in full,
  and the text behind the handle. -/
  | tag (handle text : Text)
  | scalar (text : Text) (style : Style)
  | streamEnd
  deriving Repr, DecidableEq

/-- A token that could begin a key. -/
structure PossibleKey where
  /-- Whether nothing else makes sense there. -/
  required : Bool
  /-- The number of the token. -/
  number : Nat
  place : Cursor

/-- The state of the scanner. -/
structure Scanner where
  cursor : Cursor
  tokens : List Token := []
  /-- The indentations of the open block collections, innermost first. -/
  indents : List Nat := []
  /-- The possible key of each level of brackets, innermost first. The
  last one is for the level outside all brackets. -/
  keys : List (Option PossibleKey) := [none]
  /-- Whether a key may begin here. -/
  keyAllowed : Bool := true

namespace Scanner

/-- Whether the scanner is inside brackets. -/
def inFlow (s : Scanner) : Bool := 1 < s.keys.length

/-- Adds a token. -/
def push (s : Scanner) (t : Token) : Scanner := { s with tokens := s.tokens ++ [t] }

/-- Goes past some characters. -/
def skip (s : Scanner) (n : Nat) : Scanner := { s with cursor := s.cursor.skip n }

/-- Closes the block collections that are indented more than `column`;
without a column, all of them. -/
def unroll (s : Scanner) (column : Option Nat) : Scanner :=
  if s.inFlow then s
  else
    let deeper := s.indents.takeWhile fun n => column.all (· < n)
    { s with
      tokens := s.tokens ++ deeper.map fun _ => .blockEnd
      indents := s.indents.drop deeper.length }

/-- Opens a block collection at a column, if it is deeper than the open
ones. The token goes to a given place among the tokens. -/
def roll (s : Scanner) (column : Nat) (number : Nat) (t : Token) : Scanner :=
  if s.inFlow || s.indents.head?.any (column ≤ ·) then s
  else { s with indents := column :: s.indents, tokens := s.tokens.insertIdx number t }

/-- Replaces the possible key of the level. -/
def setKey (s : Scanner) (key : Option PossibleKey) : Scanner :=
  { s with keys := key :: s.keys.tail }

/-- The possible key of the level. -/
def key? (s : Scanner) : Option PossibleKey := s.keys.head?.join

/-- Gives the possible key up, which fails if it is required. -/
def dropKey (s : Scanner) : Option Scanner :=
  if s.key?.any (·.required) then none else some (s.setKey none)

/-- Remembers that a key may begin here. -/
def saveKey (s : Scanner) : Option Scanner :=
  if !s.keyAllowed then some s
  else
    let required := !s.inFlow && s.indents.head? == some s.cursor.column
    (s.dropKey).map fun s => s.setKey (some ⟨required, s.tokens.length, s.cursor⟩)

/-- Gives up the possible keys that are too far back. -/
def dropStaleKeys (s : Scanner) : Option Scanner :=
  let stale : PossibleKey → Bool := fun k =>
    k.place.line < s.cursor.line || k.place.index + 1024 < s.cursor.index
  if s.keys.any fun k => k.any fun k => stale k && k.required then none
  else some { s with keys := s.keys.map fun k => k.filter fun k => !stale k }

/-- Goes to the next token: past blanks, comments and line breaks. Tabs
count as blanks only where no key may begin. -/
def toNextToken : Nat → Scanner → Scanner
  | 0, s => s
  | fuel + 1, s =>
    let tabs := s.inFlow || !s.keyAllowed
    let c := s.cursor.skipWhile fun x => x == ' ' || (tabs && x == '\t')
    let c := if c.head? == some '#' then c.skipWhile (!isBreak ·) else c
    if c.test isBreak 0 then
      toNextToken fuel
        { s with cursor := c.next, keyAllowed := if s.inFlow then s.keyAllowed else true }
    else { s with cursor := c }

/-! ### The tokens one by one -/

/-- The characters of an anchor. -/
def isAnchorChar (x : Char) : Bool := isNameChar x

/-- The characters of a tag. -/
def isTagChar (x : Char) : Bool := isNameChar x || x ∈ "!;/?:@&=+$.~*'()%".toList

/-- The characters of a tag that is written out in full. -/
def isFullTagChar (x : Char) : Bool := isTagChar x || x == ',' || x == '[' || x == ']'

/-- Whether every percent sign is followed by two hexadecimal digits. -/
def escapesComplete : Text → Bool
  | [] => true
  | '%' :: a :: b :: r =>
    (hexValue? a).isSome && (hexValue? b).isSome && escapesComplete r
  | c :: r => c != '%' && escapesComplete r

/-- Takes the characters of a tag; there must be some. -/
def takeTag? (isChar : Char → Bool) (t : Text) : Option (Text × Text) :=
  let name := t.takeWhile isChar
  if name.isEmpty || !escapesComplete name then none else some (name, t.dropWhile isChar)

/-- Takes the handle of a tag: an exclamation mark, or a name between
two. -/
def takeHandle? : Text → Option (Text × Text)
  | '!' :: r =>
    match r.dropWhile isNameChar with
    | '!' :: rest => some ('!' :: (r.takeWhile isNameChar ++ ['!']), rest)
    | _ => some (['!'], r)
  | _ => none

/-- Takes a tag from its exclamation mark on. Without a handle of its
own it has the handle `!`; a single exclamation mark is a tag in full. -/
def takeTagToken? (t : Text) : Option (Token × Text) :=
  match t with
  | '!' :: '<' :: r =>
    match takeTag? isFullTagChar r with
    | some (name, '>' :: rest) => some (.tag [] name, rest)
    | _ => none
  | _ =>
    match takeHandle? t with
    | none => none
    | some (['!'], r) =>
      let name := r.takeWhile isTagChar
      if !escapesComplete name then none
      else some (if name.isEmpty then .tag [] ['!'] else .tag ['!'] name, r.dropWhile isTagChar)
    | some (handle, r) => (takeTag? isTagChar r).map fun (name, rest) => (.tag handle name, rest)

/-- Ends all block collections and puts a mark between documents. -/
def documentMark (s : Scanner) (t : Token) (length : Nat) : Option Scanner :=
  (s.unroll none).dropKey.map fun s =>
    ({ s with keyAllowed := false }.push t).skip length

/-- Opens a bracket. -/
def openFlow (s : Scanner) (t : Token) : Option Scanner :=
  s.saveKey.map fun s =>
    ({ s with keys := none :: s.keys, keyAllowed := true }.push t).skip 1

/-- Closes a bracket. -/
def closeFlow (s : Scanner) (t : Token) : Option Scanner :=
  s.dropKey.map fun s =>
    ({ s with
      keys := if s.inFlow then s.keys.tail else s.keys
      keyAllowed := false }.push t).skip 1

/-- A comma. -/
def flowEntry (s : Scanner) : Option Scanner :=
  s.dropKey.map fun s => ({ s with keyAllowed := true }.push .flowEntry).skip 1

/-- A dash. -/
def blockEntry (s : Scanner) : Option Scanner :=
  if !s.inFlow && !s.keyAllowed then none
  else
    (s.roll s.cursor.column s.tokens.length .blockSequence).dropKey.map fun s =>
      ({ s with keyAllowed := true }.push .blockEntry).skip 1

/-- A question mark. -/
def explicitKey (s : Scanner) : Option Scanner :=
  if !s.inFlow && !s.keyAllowed then none
  else
    (s.roll s.cursor.column s.tokens.length .blockMapping).dropKey.map fun s =>
      ({ s with keyAllowed := !s.inFlow }.push .key).skip 1

/-- A colon. -/
def value (s : Scanner) : Option Scanner :=
  match s.key? with
  | some k =>
    let s := { s with tokens := s.tokens.insertIdx k.number .key }
    let s := (s.roll k.place.column k.number .blockMapping).setKey none
    some (({ s with keyAllowed := false }.push .value).skip 1)
  | none =>
    if !s.inFlow && !s.keyAllowed then none
    else
      let s := s.roll s.cursor.column s.tokens.length .blockMapping
      some (({ s with keyAllowed := !s.inFlow }.push .value).skip 1)

/-- An anchor or an alias. -/
def anchor (s : Scanner) (t : Text → Token) : Option Scanner :=
  s.saveKey.bind fun s =>
    let name := (s.cursor.next.ahead).takeWhile isAnchorChar
    let s := ({ s with keyAllowed := false }.push (t name)).skip (1 + name.length)
    let ended := s.cursor.blankOrEnd 0
      || s.cursor.test (fun x => x ∈ ['?', ':', ',', ']', '}', '%', '@', '\x60']) 0
    if name.isEmpty || !ended then none else some s

/-- A tag. -/
def tag (s : Scanner) : Option Scanner :=
  s.saveKey.bind fun s =>
    (takeTagToken? s.cursor.ahead).bind fun (t, rest) =>
      let s := ({ s with keyAllowed := false }.push t).skip (s.cursor.ahead.length - rest.length)
      if s.cursor.blankOrEnd 0 || (s.inFlow && s.cursor.head? == some ',') then some s else none

/-- A quoted scalar. -/
def quoted (s : Scanner) (quote : Char) : Option Scanner :=
  s.saveKey.bind fun s =>
    (scanQuoted quote (s.cursor.ahead.length + 1) [] s.cursor.next).map fun (t, c) =>
      { s with keyAllowed := false, cursor := c }.push (.scalar t .quoted)

/-- A plain scalar. -/
def plain (s : Scanner) : Option Scanner :=
  s.saveKey.bind fun s =>
    let indent := match s.indents.head? with
      | some n => n + 1
      | none => 0
    (scanPlain s.inFlow indent (s.cursor.ahead.length + 1) [] {} s.cursor).map
      fun (t, lineEnded, c) =>
        { s with keyAllowed := lineEnded, cursor := c }.push (.scalar t .plain)

/-- A block scalar. -/
def block (s : Scanner) (literal : Bool) : Option Scanner :=
  s.dropKey.bind fun s =>
    (scanBlock literal s.indents.head? s.cursor.next).map fun (t, c) =>
      { s with keyAllowed := true, cursor := c }.push
        (.scalar t (if literal then .literal else .folded))

/-- Takes a number of a version, of nine digits at most. -/
def takeVersionNumber? (t : Text) : Option (Nat × Text) :=
  let digits := t.takeWhile isDigit
  if digits.isEmpty || 9 < digits.length then none
  else some (digits.foldl (fun n c => 10 * n + (c.toNat - '0'.toNat)) 0, t.dropWhile isDigit)

/-- Takes the version behind the name of its directive. -/
def takeVersion? (t : Text) : Option (Token × Text) :=
  match takeVersionNumber? (t.dropWhile isGap) with
  | some (major, '.' :: r) =>
    (takeVersionNumber? r).map fun (minor, rest) => (.version major minor, rest)
  | _ => none

/-- Takes a handle and its text behind the name of their directive. A
handle with a name must end in an exclamation mark. -/
def takeHandleText? (t : Text) : Option (Token × Text) :=
  match takeHandle? (t.dropWhile isGap) with
  | some (handle, c :: r) =>
    if !isGap c then none
    else match takeTag? isFullTagChar (r.dropWhile isGap) with
      | some (text, rest) =>
        if rest.head?.all isGap then some (.handle handle text, rest) else none
      | none => none
  | _ => none

/-- Reads the line of a directive. Only the two known ones are allowed,
and only a comment may follow. -/
def directive? (line : Text) : Option Token :=
  let name := (line.drop 1).takeWhile isNameChar
  let r := (line.drop 1).dropWhile isNameChar
  let read : Option (Token × Text) :=
    if !r.head?.all isGap then none
    else if name = "YAML".toList then takeVersion? r
    else if name = "TAG".toList then takeHandleText? r
    else none
  match read with
  | none => none
  | some (t, rest) => if (rest.dropWhile isGap).head?.all (· == '#') then some t else none

/-- A directive: it takes its whole line. -/
def directive (s : Scanner) : Option Scanner :=
  (s.unroll none).dropKey.bind fun s =>
    let line := s.cursor.ahead.takeWhile (!isBreak ·)
    (directive? line).map fun t => ({ s with keyAllowed := false }.push t).skip line.length

/-- Whether a plain scalar can begin here. -/
def startsPlain (s : Scanner) (x : Char) : Bool :=
  let indicators := "-?:,[]{}#&*!|>'\"%@\x60".toList
  (!isGap x && !isBreak x && !(x ∈ indicators))
    || (x == '-' && !s.cursor.test isGap 1)
    || (!s.inFlow && (x == '?' || x == ':') && !s.cursor.blankOrEnd 1)

/-- Reads the token at the cursor. -/
def token (s : Scanner) (x : Char) : Option Scanner :=
  let ended := s.cursor.blankOrEnd 1
  if s.cursor.column == 0 && x == '%' then s.directive
  else if s.cursor.isMark "---" then s.documentMark .documentStart 3
  else if s.cursor.isMark "..." then s.documentMark .documentEnd 3
  else if x == '[' then s.openFlow .flowSequence
  else if x == '{' then s.openFlow .flowMapping
  else if x == ']' then s.closeFlow .flowSequenceEnd
  else if x == '}' then s.closeFlow .flowMappingEnd
  else if x == ',' then s.flowEntry
  else if x == '-' && ended then s.blockEntry
  else if x == '?' && (s.inFlow || ended) then s.explicitKey
  else if x == ':' && (s.inFlow || ended) then s.value
  else if x == '*' then s.anchor .alias
  else if x == '&' then s.anchor .anchor
  else if x == '!' then s.tag
  else if x == '|' && !s.inFlow then s.block true
  else if x == '>' && !s.inFlow then s.block false
  else if x == '\x27' || x == '"' then s.quoted x
  else if s.startsPlain x then s.plain
  else none

/-- Reads all tokens. -/
def run : Nat → Scanner → Option (List Token)
  | 0, _ => none
  | fuel + 1, s =>
    match (toNextToken (s.cursor.ahead.length + 1) s).dropStaleKeys with
    | none => none
    | some s =>
      let s := s.unroll (some s.cursor.column)
      match s.cursor.head? with
      | none => (s.documentMark .streamEnd 0).map (·.tokens)
      | some x =>
        match s.token x with
        | none => none
        | some s => run fuel s

end Scanner

/-- The tokens of a document. A byte order mark at its start is passed
over, but takes a column of the first line. -/
def tokens? (t : Text) : Option (List Token) :=
  if !t.all isAllowed then none
  else
    let start : Cursor := { ahead := unifyBreaks t }
    let start := if start.head? == some '\ufeff' then start.next else start
    Scanner.run (t.length + 2) { cursor := start }

end Yaml

end Stylesheet
