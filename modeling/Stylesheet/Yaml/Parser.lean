import Stylesheet.Yaml.Token

/-!
# Reading YAML

From tokens to values. Collections in brackets and indented ones have
the same meaning; values that are left out are empty plain scalars. An
alias stands for the last value that was given its name before. Tags are
written out in full by the handles that the directives declare.
-/

set_option autoImplicit false

namespace Stylesheet

namespace Yaml

/-- The values with names, latest first. -/
abbrev Anchors := List (Text × Yaml)

/-- What a reader gives: a value, the names so far, and the tokens
behind. -/
abbrev Reading (α : Type) := Option (α × Anchors × List Token)

/-- What stands in front of a value. -/
structure Properties where
  name : Option Text := none
  tag : Option Text := none
  /-- Whether there is anything. -/
  given : Bool := true

/-- Reads the properties in front of a value. Tags are written out in
full already. -/
def properties : List Token → Properties × List Token
  | .anchor name :: .tag _ tag :: ts => ({ name := some name, tag := some tag }, ts)
  | .tag _ tag :: .anchor name :: ts => ({ name := some name, tag := some tag }, ts)
  | .anchor name :: ts => ({ name := some name }, ts)
  | .tag _ tag :: ts => ({ tag := some tag }, ts)
  | ts => ({ given := false }, ts)

/-- The tag of a scalar: a single exclamation mark says nothing. -/
def Properties.scalarTag (p : Properties) : Option Text := p.tag.filter (· != ['!'])

/-- Where a reader stands. -/
inductive Reader where
  /-- At a value. In a block, collections may be indented; in the value
  of a mapping, a sequence may even be without indentation. -/
  | node (block indentless : Bool)
  /-- At the entries of an indented sequence. -/
  | blockSequence
  /-- At the entries of a sequence without indentation. -/
  | indentless
  /-- At the entries of an indented mapping. -/
  | blockMapping
  /-- At the items of a sequence in brackets. -/
  | flowSequence (first : Bool)
  /-- At the entries of a mapping in brackets. -/
  | flowMapping (first : Bool)

/-- Whether the next token is one of some. -/
def nextIs (tokens : List Token) (ts : List Token) : Bool := ts.head?.any (· ∈ tokens)

/-- Reads a value that is absent where `stops` holds. -/
def orAbsent (node : Anchors → List Token → Reading Yaml) (stops : List Token → Bool)
    (anchors : Anchors) (ts : List Token) : Reading Yaml :=
  if stops ts then some (absent, anchors, ts) else node anchors ts

/-- Reads the value behind a colon. -/
def behindColon (node : Anchors → List Token → Reading Yaml) (stops : List Token → Bool)
    (anchors : Anchors) (ts : List Token) : Reading Yaml :=
  match ts with
  | .value :: rest => orAbsent node stops anchors rest
  | _ => some (absent, anchors, ts)

/-- Reads a key and its value. -/
def pair (node : Anchors → List Token → Reading Yaml) (stops : List Token)
    (anchors : Anchors) (ts : List Token) : Reading (Yaml × Yaml) :=
  match orAbsent node (nextIs (.value :: stops)) anchors ts with
  | none => none
  | some (k, anchors, ts) =>
    (behindColon node (nextIs stops) anchors ts).map fun (v, anchors, ts) => ((k, v), anchors, ts)

/-- Goes past the comma between two items. -/
def comma (first : Bool) (ts : List Token) : Option (List Token) :=
  if first then some ts
  else match ts with
    | .flowEntry :: rest => some rest
    | _ => none

/-- Puts an item in front of the rest of a sequence. -/
def prependItem (y : Yaml) : Reading Yaml → Reading Yaml
  | some (.sequence ys, anchors, rest) => some (.sequence (y :: ys), anchors, rest)
  | _ => none

/-- Puts an entry in front of the rest of a mapping. -/
def prependEntry (e : Yaml × Yaml) : Reading Yaml → Reading Yaml
  | some (.mapping es, anchors, rest) => some (.mapping (e :: es), anchors, rest)
  | _ => none

/-- Gives a value the name that stands in front of it. -/
def named (name : Option Text) : Reading Yaml → Reading Yaml
  | some (y, anchors, rest) => some (y, name.toList.map (·, y) ++ anchors, rest)
  | none => none

/-- Reads a value or the rest of a collection. Rests of sequences come
as sequences, and rests of mappings as mappings. -/
def read : Nat → Reader → Anchors → List Token → Reading Yaml
  | 0, _, _, _ => none
  | _ + 1, .node _ _, anchors, .alias name :: rest =>
    (anchors.lookup name).map fun y => (y, anchors, rest)
  | fuel + 1, .node block indentless, anchors, ts =>
    let (p, ts) := properties ts
    let empty := if p.given then some (.scalar [] .plain p.tag, anchors, ts) else none
    -- Inside the value its name stands for a cycle.
    let anchors := p.name.toList.map (·, .cycle) ++ anchors
    named p.name <|
      match ts with
      | .scalar text style :: rest => some (.scalar text style p.scalarTag, anchors, rest)
      | .flowSequence :: rest => read fuel (.flowSequence true) anchors rest
      | .flowMapping :: rest => read fuel (.flowMapping true) anchors rest
      | .blockEntry :: _ => if indentless then read fuel .indentless anchors ts else empty
      | .blockSequence :: rest => if block then read fuel .blockSequence anchors rest else empty
      | .blockMapping :: rest => if block then read fuel .blockMapping anchors rest else empty
      | _ => empty
  | fuel + 1, .blockSequence, anchors, ts =>
    match ts with
    | .blockEnd :: rest => some (.sequence [], anchors, rest)
    | .blockEntry :: rest =>
      match orAbsent (read fuel (.node true false)) (nextIs [.blockEntry, .blockEnd])
        anchors rest with
      | some (y, anchors, rest) => prependItem y (read fuel .blockSequence anchors rest)
      | none => none
    | _ => none
  | fuel + 1, .indentless, anchors, ts =>
    match ts with
    | .blockEntry :: rest =>
      match orAbsent (read fuel (.node true false)) (nextIs [.blockEntry, .key, .value, .blockEnd])
        anchors rest with
      | some (y, anchors, rest) => prependItem y (read fuel .indentless anchors rest)
      | none => none
    | _ => some (.sequence [], anchors, ts)
  | fuel + 1, .blockMapping, anchors, ts =>
    match ts with
    | .blockEnd :: rest => some (.mapping [], anchors, rest)
    | .key :: rest =>
      match pair (read fuel (.node true true)) [.key, .value, .blockEnd] anchors rest with
      | some (e, anchors, rest) => prependEntry e (read fuel .blockMapping anchors rest)
      | none => none
    | _ => none
  | fuel + 1, .flowSequence first, anchors, ts =>
    match ts with
    | .flowSequenceEnd :: rest => some (.sequence [], anchors, rest)
    | _ =>
      match comma first ts with
      | none => none
      | some (.flowSequenceEnd :: rest) => some (.sequence [], anchors, rest)
      | some (.key :: rest) =>
        match pair (read fuel (.node false false)) [.flowEntry, .flowSequenceEnd] anchors rest with
        | some (e, anchors, rest) =>
          prependItem (.mapping [e]) (read fuel (.flowSequence false) anchors rest)
        | none => none
      | some ts =>
        match read fuel (.node false false) anchors ts with
        | some (y, anchors, rest) => prependItem y (read fuel (.flowSequence false) anchors rest)
        | none => none
  | fuel + 1, .flowMapping first, anchors, ts =>
    match ts with
    | .flowMappingEnd :: rest => some (.mapping [], anchors, rest)
    | _ =>
      match comma first ts with
      | none => none
      | some (.flowMappingEnd :: rest) => some (.mapping [], anchors, rest)
      | some (.key :: rest) =>
        match pair (read fuel (.node false false)) [.flowEntry, .flowMappingEnd] anchors rest with
        | some (e, anchors, rest) => prependEntry e (read fuel (.flowMapping false) anchors rest)
        | none => none
      | some ts =>
        match read fuel (.node false false) anchors ts with
        | some (k, anchors, rest) =>
          prependEntry (k, absent) (read fuel (.flowMapping false) anchors rest)
        | none => none

/-! ### Documents -/

/-- The directives in front of a document. -/
structure Directives where
  /-- Whether the version is given. -/
  versioned : Bool := false
  /-- The texts of the handles that are given. -/
  handles : List (Text × Text) := []

/-- Takes the directives in front of a document. Each may be given once,
and the version is a known one. -/
def takeDirectives (d : Directives) : List Token → Option (Directives × List Token)
  | .version major minor :: ts =>
    if d.versioned || major ≠ 1 || (minor ≠ 1 && minor ≠ 2) then none
    else takeDirectives { d with versioned := true } ts
  | .handle name text :: ts =>
    if (d.handles.lookup name).isSome then none
    else takeDirectives { d with handles := (name, text) :: d.handles } ts
  | ts => some (d, ts)

/-- The handles that need no directive. -/
def standardHandles : List (Text × Text) := [(['!'], ['!']), (['!', '!'], standardTag "")]

/-- Writes a tag out in full; its handle must be known. -/
def Directives.expand (d : Directives) : Token → Option Token
  | .tag [] text => some (.tag [] text)
  | .tag handle text =>
    ((d.handles ++ standardHandles).lookup handle).map fun full => .tag [] (full ++ text)
  | t => some t

/-- Whether a document has ended before a token. -/
def endsContent : Token → Bool
  | .version _ _ | .handle _ _ | .documentStart | .documentEnd | .streamEnd => true
  | _ => false

/-- Reads the content of a document behind its start. -/
def content (d : Directives) (ts : List Token) : Option (Yaml × List Token) :=
  if ts.head?.any endsContent then some (absent, ts)
  else (ts.mapM d.expand).bind fun ts =>
    (read (4 * ts.length + 4) (.node true false) [] ts).map fun (y, _, rest) => (y, rest)

/-- Reads the first document: none if there is nothing at all. Behind
directives the start of the document is marked. -/
def document (ts : List Token) : Option (Option Yaml × List Token) :=
  match ts with
  | .streamEnd :: _ => some (none, ts)
  | .documentEnd :: _ => none
  | _ =>
    match takeDirectives {} ts with
    | none => none
    | some (d, .documentStart :: rest) => (content d rest).map fun (y, rest) => (some y, rest)
    | some (d, rest) =>
      if ts.head?.any endsContent then none
      else (content d rest).map fun (y, rest) => (some y, rest)

/-- Reads a text with one document: its value, which is absent when there
is no document. More than one document is an error. -/
def parse? (t : Text) : Option (Option Yaml) :=
  match tokens? t with
  | none => none
  | some ts =>
    match document ts with
    | some (y, rest) => if rest.dropWhile (· == .documentEnd) = [.streamEnd] then some y else none
    | none => none

end Yaml

end Stylesheet
