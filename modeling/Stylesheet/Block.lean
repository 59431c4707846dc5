import Stylesheet.Cut
import Stylesheet.Delimiter
import Stylesheet.Text.WordChar

/-!
# Blocks

A block is a header, blanks, and a body between two delimiters, such as
`@grid { … }`. What counts as a header is a `Pattern`: it looks at the
text in front of it and says how many characters it takes.

`Block.cut` takes a text apart at its blocks, from left to right. A
place is the start of a block when the pattern takes a header there, the
opening delimiter follows, the caller accepts the place, and the place
is outside literals. The search goes on behind a block, so blocks inside
a body are left for another round.

Main statements: `fill_full_of_cut` (nothing is lost) and
`length_body_lt_of_cut` (a body is shorter than the text around it),
which is what lets the compiler recurse into bodies.
-/

set_option autoImplicit false

namespace Stylesheet

/-- What a pattern took from the front of a text. -/
structure PatternMatch where
  /-- How many characters it took. -/
  length : Nat
  /-- The parts of interest, absent ones included. -/
  groups : List (Option Text)
  deriving Repr, DecidableEq

/-- A pattern for the front of a text. -/
abbrev Pattern := Text → Option PatternMatch

namespace Pattern

/-- A fixed text. -/
def exactly (word : Text) : Pattern := fun t =>
  if word.isPrefixOf t then some ⟨word.length, []⟩ else none

/-- A fixed text that no word character follows. -/
def keyword (word : Text) : Pattern := fun t =>
  match Text.after? word t with
  | some r => if endsWord r then some ⟨word.length, []⟩ else none
  | none => none

end Pattern

/-- A header with its body. -/
structure Block where
  /-- The position of the header. -/
  start : Nat
  /-- The position behind the closing delimiter. -/
  stop : Nat
  /-- The text that the pattern took. -/
  header : Text
  /-- The parts of the header. -/
  groups : List (Option Text)
  /-- The text between the delimiters. -/
  body : Text
  /-- The whole text, from the header to the closing delimiter. -/
  full : Text
  deriving Repr, DecidableEq

namespace Block

/-- Part `n` of the header, counted from one. -/
def group (b : Block) (n : Nat) : Option Text :=
  match n with
  | 0 => none
  | i + 1 => (b.groups[i]?).join

/-- Part `n` of the header, empty when it is absent. -/
def groupText (b : Block) (n : Nat) : Text := (b.group n).getD []

/-- What a search for blocks looks for. -/
structure Search where
  pattern : Pattern
  delimiter : Delimiter := .brace
  /-- Says from the text before a place, nearest character first,
  whether a header may stand there. -/
  accept : Text → Bool := fun _ => true

/-- The block at one place of a text, and the text behind it. The place
is given by the text before it, nearest character first, and the text
ahead; `spans` are the literals of the whole text. -/
def at? (search : Search) (spans : List Span) (behind ahead : Text) :
    Except ScanError (Option (Block × Text)) :=
  match search.pattern ahead with
  | none => .ok none
  | some m =>
    let header := ahead.take m.length
    let after := ahead.drop m.length
    let gap := after.takeWhile isBlank
    let fromOpening := after.dropWhile isBlank
    let offset := Text.size behind
    if fromOpening.head? = some search.delimiter.opening ∧ search.accept behind
        ∧ insideAny spans offset = false then
      match search.delimiter.close? fromOpening with
      | none =>
        .error (.unclosed search.delimiter.opening
          (offset + Text.size header + Text.size gap)
          (Text.newlines behind + Text.newlines header + Text.newlines gap + 1))
      | some (inside, rest) =>
        let full := header ++ gap ++ inside ++ [search.delimiter.closing]
        .ok (some (
          { start := offset, stop := offset + Text.size full, header, groups := m.groups,
            body := inside.drop 1, full }, rest))
    else .ok none

/-- A block takes its text from the front of what lies ahead. -/
theorem full_append_of_at? {search : Search} {spans : List Span} {behind ahead rest : Text}
    {b : Block} (h : at? search spans behind ahead = .ok (some (b, rest))) :
    b.full ++ rest = ahead := by
  unfold at? at h
  split at h
  · simp at h
  · rename_i m _
    simp only at h
    split at h
    · split at h
      · cases h
      · rename_i hclose
        have hc := Delimiter.close?_eq hclose
        simp only [Except.ok.injEq, Option.some.injEq, Prod.mk.injEq] at h
        rw [← h.1, ← h.2]
        simp only [List.append_assoc, List.cons_append, List.nil_append]
        rw [← hc, List.takeWhile_append_dropWhile, List.take_append_drop]
    · simp at h

/-- A body is shorter than its block. -/
theorem length_body_lt_of_at? {search : Search} {spans : List Span} {behind ahead rest : Text}
    {b : Block} (h : at? search spans behind ahead = .ok (some (b, rest))) :
    b.body.length < b.full.length := by
  unfold at? at h
  split at h
  · simp at h
  · simp only at h
    split at h
    · split at h
      · cases h
      · simp only [Except.ok.injEq, Option.some.injEq, Prod.mk.injEq] at h
        rw [← h.1]
        simp only [List.length_append, List.length_drop, List.length_singleton]
        omega
    · simp at h

/-- Takes the text ahead of a place apart at its blocks. -/
def cutFrom (search : Search) (spans : List Span) (behind ahead : Text) :
    Except ScanError (Cut Block) :=
  match _h : at? search spans behind ahead with
  | .error e => .error e
  | .ok (some (block, rest)) =>
    match cutFrom search spans (block.full.reverse ++ behind) rest with
    | .error e => .error e
    | .ok cut => .ok (cut.item block)
  | .ok none =>
    match ahead with
    | [] => .ok (.whole [])
    | c :: r =>
      match cutFrom search spans (c :: behind) r with
      | .error e => .error e
      | .ok cut => .ok (cut.prepend [c])
termination_by ahead.length
decreasing_by
  · have htext := congrArg List.length (full_append_of_at? _h)
    have hbody := length_body_lt_of_at? _h
    simp only [List.length_append] at htext
    omega
  · simp

/-- Takes a text apart at its blocks. -/
def cut (search : Search) (t : Text) : Except ScanError (Cut Block) :=
  cutFrom search (literalSpans t) [] t

/-- The blocks of a text, from left to right. -/
def find (search : Search) (t : Text) : Except ScanError (List Block) :=
  (cut search t).map Cut.items

/-- The blocks of a text, and the text without them. -/
def extract (search : Search) (t : Text) : Except ScanError (Text × List Block) :=
  (cut search t).map fun c => (c.gaps, c.items)

/-- The text with each block replaced. -/
def replace (search : Search) (f : Block → Text) (t : Text) : Except ScanError Text :=
  (cut search t).map (Cut.fill f)

/-- With the blocks in their places the text is as it was. -/
theorem fill_full_of_cutFrom {search : Search} {spans : List Span} {behind ahead : Text}
    {c : Cut Block} (h : cutFrom search spans behind ahead = .ok c) :
    c.fill Block.full = ahead := by
  fun_induction cutFrom search spans behind ahead generalizing c with
  | case1 behind ahead e he => cases h
  | case2 behind ahead b rest hat e hrec ih => cases h
  | case3 behind ahead b rest hat cut hrec ih =>
    cases h
    rw [Cut.fill_item, ih hrec, full_append_of_at? hat]
  | case4 behind hat => cases h; simp
  | case5 behind c' r hat e hrec ih => cases h
  | case6 behind c' r hat cut hrec ih =>
    cases h
    rw [Cut.fill_prepend, ih hrec]
    rfl

/-- Cutting a text at its blocks loses nothing. -/
theorem fill_full_of_cut {search : Search} {t : Text} {c : Cut Block} (h : cut search t = .ok c) :
    c.fill Block.full = t :=
  fill_full_of_cutFrom h

/-- The body of a block is shorter than the block, so what is done with bodies
terminates. -/
theorem length_body_lt_full_of_cutFrom {search : Search} {spans : List Span} {behind ahead : Text}
    {c : Cut Block} (h : cutFrom search spans behind ahead = .ok c) :
    ∀ b ∈ c.items, b.body.length < b.full.length := by
  fun_induction cutFrom search spans behind ahead generalizing c with
  | case1 behind ahead e he => cases h
  | case2 behind ahead b rest hat e hrec ih => cases h
  | case3 behind ahead b rest hat cut hrec ih =>
    cases h
    intro b' hb'
    rcases List.mem_cons.mp (by simpa using hb') with rfl | hb'
    · exact length_body_lt_of_at? hat
    · exact ih hrec b' hb'
  | case4 behind hat => cases h; simp
  | case5 behind c' r hat e hrec ih => cases h
  | case6 behind c' r hat cut hrec ih =>
    cases h
    simpa using ih hrec

/-- The body of every block found is shorter than the text. -/
theorem length_body_lt_of_cut {search : Search} {t : Text} {c : Cut Block}
    (h : cut search t = .ok c) : ∀ b ∈ c.items, b.body.length < t.length := by
  intro b hb
  have hbody := length_body_lt_full_of_cutFrom h b hb
  have hfull := c.length_le_fill Block.full hb
  rw [fill_full_of_cut h] at hfull
  omega

end Block

end Stylesheet
