import Stylesheet.Text.Blank

/-!
# Text

A text is a list of characters, so that every scanner of the library is
a recursion on its input and what a scanner leaves is again a text.
Positions are counted in UTF-8 bytes: the position of a place in a text
is the `size` of what stands before it. `splitAtByte` goes back from a
position to the place, and a position inside a character counts as the
end of that character.
-/

set_option autoImplicit false

namespace Stylesheet

/-- Stylesheet text. -/
abbrev Text := List Char

namespace Text

/-- How many bytes the UTF-8 encoding of a text takes. -/
def size (t : Text) : Nat := t.foldr (fun c n => c.utf8Size + n) 0

/-- The empty text has no bytes. -/
@[simp] theorem size_nil : size [] = 0 := rfl

/-- The bytes of a character and of the others. -/
@[simp] theorem size_cons (c : Char) (t : Text) : size (c :: t) = c.utf8Size + size t := rfl

/-- The bytes of two texts. -/
@[simp] theorem size_append (s t : Text) : size (s ++ t) = size s + size t := by
  induction s with
  | nil => simp
  | cons c s ih => rw [List.cons_append, size_cons, size_cons, ih, Nat.add_assoc]

/-- Cuts a text at a byte position. A character that the position falls
into stays in front. -/
def splitAtByte : Nat → Text → Text × Text
  | 0, t => ([], t)
  | _ + 1, [] => ([], [])
  | n + 1, c :: r =>
    let (front, back) := splitAtByte (n + 1 - c.utf8Size) r
    (c :: front, back)

/-- How many line feeds a text holds. -/
def newlines (t : Text) : Nat := t.countP (· == '\n')

/-- The line, counted from one, on which a byte position falls. -/
def lineOf (t : Text) (offset : Nat) : Nat := newlines (splitAtByte offset t).1 + 1

/-! ### Trimming and words -/

/-- Drops the blanks in front. -/
def trimStart (t : Text) : Text := t.dropWhile isBlank

/-- Drops the blanks at the end. -/
def trimEnd (t : Text) : Text := (t.reverse.dropWhile isBlank).reverse

/-- Drops the blanks on both sides. -/
def trim (t : Text) : Text := trimEnd (trimStart t)

/-- A text of blanks only. -/
def blank (t : Text) : Bool := t.all isBlank

/-- Drops from both sides what `p` holds of. -/
def trimWhere (p : Char → Bool) (t : Text) : Text :=
  ((t.dropWhile p).reverse.dropWhile p).reverse

/-- Trimming at the front makes no text longer. -/
theorem length_trimStart_le (t : Text) : (trimStart t).length ≤ t.length :=
  (List.dropWhile_suffix isBlank).length_le

/-- Nor does it at the end. -/
theorem length_trimEnd_le (t : Text) : (trimEnd t).length ≤ t.length := by
  have h := (List.dropWhile_suffix (l := t.reverse) isBlank).length_le
  simpa [trimEnd] using h

/-- Nor on both sides. -/
theorem length_trim_le (t : Text) : (trim t).length ≤ t.length :=
  Nat.le_trans (length_trimEnd_le _) (length_trimStart_le t)

/-- Cuts a text at every character that `p` holds of, dropping that
character: one part more than there are such characters. -/
abbrev splitWhere (p : Char → Bool) (t : Text) : List Text := t.splitOnP p

/-- Parts set one after another with a separator between them. -/
def joinWith (separator : Text) (parts : List Text) : Text := separator.intercalate parts

/-- The maximal runs of characters that are not blank. -/
def words (t : Text) : List Text := (splitWhere isBlank t).filter (!·.isEmpty)

/-- Every run of blanks becomes one space, and the ends have none. -/
def collapse (t : Text) : Text := joinWith [' '] (words t)

/-! ### Letter case, parts and places -/

/-- The text with its ASCII capitals made small. -/
def lower (t : Text) : Text := t.map Char.toLower

/-- Equality that does not tell ASCII capitals from small letters. -/
def sameLetters (s t : Text) : Bool := lower s == lower t

/-- Whether `needle` stands somewhere in a text. -/
def contains (needle : Text) : Text → Bool
  | [] => needle.isEmpty
  | c :: r => needle.isPrefixOf (c :: r) || contains needle r

/-- The rest of a text that begins with `front`. -/
def after? : Text → Text → Option Text
  | [], t => some t
  | _ :: _, [] => none
  | f :: fs, c :: r => if c = f then after? fs r else none

/-- What is read off a text stands before the rest of it. -/
theorem eq_append_of_after? {front t r : Text} (h : after? front t = some r) : t = front ++ r := by
  fun_induction after? front t <;> simp_all

/-- As `after?`, with ASCII capitals taken for small letters. The
characters of `front` are small letters. -/
def afterLetters? : Text → Text → Option Text
  | [], t => some t
  | _ :: _, [] => none
  | f :: fs, c :: r => if c.toLower == f then afterLetters? fs r else none

/-- The part of a text before the first `c`, and the part behind it. -/
def splitOnce (c : Char) (t : Text) : Option (Text × Text) :=
  match t.dropWhile (· != c) with
  | [] => none
  | _ :: r => some (t.takeWhile (· != c), r)

/-- Replaces every occurrence of one character by a text. -/
def substitute (c : Char) (new : Text) (t : Text) : Text :=
  t.flatMap fun d => if d == c then new else [d]

/-- The first result of `f` behind as many of the leading blanks as
possible, but at least `least` of them. -/
def pastBlanks? {α : Type} (least : Nat) (f : Text → Option α) (t : Text) : Option α :=
  let count := (t.takeWhile isBlank).length
  (List.range (count + 1 - least)).findSome? fun k => f (t.drop (count - k))

/-- The order of two texts by their characters, first difference first. -/
def order : Text → Text → Ordering
  | [], [] => .eq
  | [], _ :: _ => .lt
  | _ :: _, [] => .gt
  | a :: s, b :: t => if a < b then .lt else if b < a then .gt else order s t

end Text

/-- ASCII digits. -/
def isDigit (c : Char) : Bool := '0' ≤ c && c ≤ '9'

/-- ASCII letters. -/
def isLetter (c : Char) : Bool := ('a' ≤ c && c ≤ 'z') || ('A' ≤ c && c ≤ 'Z')

/-- The characters of which names of constants, mixins and extensions
are made: ASCII letters and digits, underscore and hyphen. -/
def isNameChar (c : Char) : Bool := isLetter c || isDigit c || c == '_' || c == '-'

end Stylesheet
