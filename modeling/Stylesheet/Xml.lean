import Stylesheet.Text.Basic

/-!
# XML events

A reader for simple XML documents. `Xml.read?` gives what stands in a
document from left to right: tags, text and character data. Text is
trimmed and its references are replaced; attributes, comments,
instructions and document types are passed over. Every closing tag must
close the last element that is open; elements may be left open at the
end.
-/

set_option autoImplicit false

namespace Stylesheet

namespace Xml

/-- What stands in a document. -/
inductive Event where
  | opening (name : Text)
  | closing (name : Text)
  /-- Text with its references replaced. -/
  | text (t : Text)
  /-- A section of character data, as written. -/
  | data (t : Text)
  /-- Anything without a meaning here. -/
  | other
  deriving Repr, DecidableEq

/-- The blanks of XML. -/
def isSpace (c : Char) : Bool := c == ' ' || c == '\t' || c == '\n' || c == '\r'

/-! ### References -/

/-- The value of a digit in a base up to sixteen. -/
def digit? (base : Nat) (c : Char) : Option Nat :=
  let n :=
    if isDigit c then c.toNat - '0'.toNat
    else if isLetter c then c.toLower.toNat - 'a'.toNat + 10
    else base
  if n < base then some n else none

/-- The character with a number, which is neither zero nor a
surrogate. -/
def character? (base : Nat) (digits : Text) : Option Char :=
  if digits.isEmpty then none
  else
    (digits.mapM (digit? base)).bind fun values =>
      let n := values.foldl (fun n d => base * n + d) 0
      if h : n.isValidChar then if n = 0 then none else some (Char.ofNatAux n h) else none

/-- What a reference stands for. -/
def reference? (name : Text) : Option Char :=
  match name with
  | '#' :: 'x' :: digits => character? 16 digits
  | '#' :: digits => character? 10 digits
  | _ =>
    [("lt", '<'), ("gt", '>'), ("amp", '&'), ("apos", '\x27'), ("quot", '"')].lookup
      (String.ofList name)

/-- Replaces the references of a text. `pending` is the name of a
reference that has begun, last character first. An ampersand must be
followed by a semicolon before the next ampersand. -/
def unescapeFrom (pending : Option Text) : Text → Option Text
  | [] => if pending.isNone then some [] else none
  | c :: r =>
    match pending with
    | none =>
      if c = '&' then unescapeFrom (some []) r else (unescapeFrom none r).map (c :: ·)
    | some name =>
      if c = '&' then none
      else if c = ';' then
        match reference? name.reverse with
        | some new => (unescapeFrom none r).map (new :: ·)
        | none => none
      else unescapeFrom (some (c :: name)) r

/-- Replaces the references of a text. -/
def unescape? (t : Text) : Option Text := unescapeFrom none t

/-! ### Markup -/

/-- Cuts a text at the first `>` that ends the markup. `ends` says so from
the text before it, last character first. -/
def close? (ends : Text → Bool) (seen : Text) : Text → Option (Text × Text)
  | [] => none
  | c :: r => if c = '>' ∧ ends seen then some (seen.reverse, r) else close? ends (c :: seen) r

/-- What stands behind a closing mark is shorter than the text. -/
theorem length_lt_of_close? {ends : Text → Bool} {seen t content rest : Text}
    (h : close? ends seen t = some (content, rest)) : rest.length < t.length := by
  induction t generalizing seen with
  | nil => simp [close?] at h
  | cons c r ih =>
    simp only [close?] at h
    split at h
    · simp only [Option.some.injEq, Prod.mk.injEq] at h
      simp [h.2]
    · have := ih h
      simp only [List.length_cons]
      omega

/-- The quote that is open behind a text, last character first. -/
def openQuote (seen : Text) : Option Char :=
  seen.foldr (fun c quote =>
    match quote with
    | none => if c = '"' ∨ c = '\x27' then some c else none
    | some q => if c = q then none else some q) none

/-- The content of markup and the text behind it, from the character
behind the `<` on. In a tag, also a closing one, a quoted text may hold
a `>`. -/
def content? (t : Text) : Option (Text × Text) :=
  match t with
  | '!' :: '-' :: _ =>
    close? (fun seen => 4 < seen.length && "--".toList.isPrefixOf seen) [] t
  | '!' :: '[' :: _ => close? (fun seen => "]]".toList.isPrefixOf seen) [] t
  | '!' :: _ => close? (fun seen => seen.count '<' == seen.count '>') [] t
  | '?' :: _ => close? (fun seen => seen.head? == some '?') [] t
  | _ => close? (fun seen => (openQuote seen).isNone) [] t

/-- So is what stands behind a piece of content. -/
theorem length_lt_of_content? {t content rest : Text} (h : content? t = some (content, rest)) :
    rest.length < t.length := by
  unfold content? at h
  split at h <;> exact length_lt_of_close? h

/-- The event that some markup is. -/
def event? (content : Text) : Option Event :=
  match content with
  | '!' :: '-' :: r => if r.head? = some '-' then some .other else none
  | '!' :: '[' :: r =>
    (Text.after? "CDATA[".toList r).map fun data => .data (data.take (data.length - 2))
  | '!' :: r =>
    match Text.afterLetters? "doctype".toList r with
    | some name => if name.all isSpace then none else some .other
    | none => none
  | '?' :: r => if r.isEmpty then none else some .other
  | '/' :: r =>
    let name := (r.reverse.dropWhile isSpace).reverse
    some (.closing (if name.isEmpty then r else name))
  | _ =>
    if content.getLast? = some '/' then some .other
    else some (.opening (content.takeWhile (!isSpace ·)))

/-- Reads a document, without a look at which tags match. -/
def events? (t : Text) : Option (List Event) :=
  let start := t.dropWhile isSpace
  let text := start.takeWhile (· != '<')
  match (unescape? (text.reverse.dropWhile isSpace).reverse) with
  | none => none
  | some unescaped =>
    let front := if text.isEmpty then [] else [.text unescaped]
    match _h : start.dropWhile (· != '<') with
    | [] => some front
    | _ :: markup =>
      match _hc : content? markup with
      | none => none
      | some (content, rest) =>
        match event? content, events? rest with
        | some e, some es => some (front ++ e :: es)
        | _, _ => none
termination_by t.length
decreasing_by
  have h1 := length_lt_of_content? _hc
  have h2 := (List.dropWhile_suffix (l := t.dropWhile isSpace) (· != '<')).length_le
  have h3 := (List.dropWhile_suffix (l := t) isSpace).length_le
  have h4 := congrArg List.length _h
  simp only [start, List.length_cons] at h2 h4
  omega

/-- Whether every closing tag closes the last open element. `opened` are
the open elements, innermost first. -/
def matched : List Text → List Event → Bool
  | _, [] => true
  | opened, .opening name :: es => matched (name :: opened) es
  | opened, .closing name :: es =>
    match opened with
    | [] => false
    | last :: others => last == name && matched others es
  | opened, _ :: es => matched opened es

/-- Reads a document. A byte order mark at its start is passed over. -/
def read? (t : Text) : Option (List Event) :=
  let body := match t with
    | '\ufeff' :: r => r
    | r => r
  (events? body).filter (matched [])

end Xml

end Stylesheet
