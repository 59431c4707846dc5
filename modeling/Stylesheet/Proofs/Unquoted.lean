import Stylesheet.Block
import Stylesheet.Proofs.Brackets
import Stylesheet.Proofs.Pieces

/-!
# Texts without literals

Where no quote and no slash stands in a text, nothing in it is a literal:
each character is a piece of its own (`pieces_of_freeOf`), no position is
inside a literal, and a search for a closing delimiter counts characters.
`close?_block` says what it finds: the brace that closes a block whose
braces are balanced, whatever else is inside and behind it.

With this a search for blocks can be followed along a text that is written
as a row of texts and blocks. `cutFrom_text` goes over a text in which no
header begins, and `cutFrom_block` over a block.
-/

set_option autoImplicit false

namespace Stylesheet

namespace Text

/-! ### Characters that do not occur -/

/-- None of some characters stands in the text. -/
def FreeOf (marks : List Char) (t : Text) : Prop := ∀ c ∈ t, c ∉ marks

instance (marks : List Char) (t : Text) : Decidable (FreeOf marks t) :=
  decidable_of_iff (t.all fun c => decide (c ∉ marks)) (by simp [FreeOf])

/-- Nothing stands in the empty text. -/
@[simp] theorem freeOf_nil (marks : List Char) : FreeOf marks [] := by
  simp [FreeOf]

/-- One character and the others. -/
@[simp] theorem freeOf_cons {marks : List Char} {c : Char} {t : Text} :
    FreeOf marks (c :: t) ↔ c ∉ marks ∧ FreeOf marks t :=
  List.forall_mem_cons

/-- Both texts. -/
@[simp] theorem freeOf_append {marks : List Char} {s t : Text} :
    FreeOf marks (s ++ t) ↔ FreeOf marks s ∧ FreeOf marks t :=
  List.forall_mem_append

/-- Fewer characters to be free of. -/
theorem FreeOf.mono {marks marks' : List Char} {t : Text} (h : FreeOf marks t)
    (hsub : marks' ⊆ marks) : FreeOf marks' t :=
  fun c hc hmem => h c hc (hsub hmem)

/-- The order does not matter. -/
theorem FreeOf.reverse {marks : List Char} {t : Text} (h : FreeOf marks t) :
    FreeOf marks t.reverse :=
  fun c hc => h c (List.mem_reverse.mp hc)

/-- Nor does leaving characters out. -/
theorem FreeOf.of_subset {marks : List Char} {s t : Text} (h : FreeOf marks t) (hsub : s ⊆ t) :
    FreeOf marks s :=
  fun c hc => h c (hsub hc)

/-- None of the characters that `p` does not hold of. -/
theorem freeOf_of_forall {p : Char → Bool} {marks : List Char} (hmarks : marks.any p = false)
    {t : Text} (ht : ∀ c ∈ t, p c = true) : FreeOf marks t := by
  intro c hc hmem
  exact List.any_eq_false.mp hmarks c hmem (ht c hc)

/-! ### Balanced braces -/

/-- How many braces are open behind a text, if `depth` are open before it.
There is no answer when a brace closes nothing. -/
def bracesBehind : Nat → Text → Option Nat
  | depth, [] => some depth
  | depth, c :: r =>
    if c = '{' then bracesBehind (depth + 1) r
    else if c = '}' then
      match depth with
      | 0 => none
      | depth + 1 => bracesBehind depth r
    else bracesBehind depth r

/-- Every brace of the text has its partner in the text. -/
def Balanced (t : Text) : Prop := bracesBehind 0 t = some 0

instance (t : Text) : Decidable (Balanced t) :=
  inferInstanceAs (Decidable (bracesBehind 0 t = some 0))

end Text

open Text

/-! ### Literals -/

/-- The characters that can begin a literal. -/
def literalMarks : List Char := ['"', apostrophe, '/']

/-- A character that begins no literal is no quote. -/
theorem isQuote_of_not_mem {c : Char} (hc : c ∉ literalMarks) : isQuote c = false := by
  simp only [literalMarks, List.mem_cons, List.not_mem_nil, or_false, not_or] at hc
  simp [isQuote, hc]

/-- Each character is a piece. -/
theorem pieces_of_freeOf {t : Text} (ht : FreeOf literalMarks t) : pieces t = t.map .plain := by
  induction t with
  | nil => simp [pieces]
  | cons c r ih =>
      obtain ⟨hc, hr⟩ := freeOf_cons.mp ht
      have hslash : c ≠ '/' := by
        rintro rfl
        exact hc (by decide)
      rw [pieces_cons (isQuote_of_not_mem hc) hslash, ih hr, List.map_cons]

/-- Characters as pieces spell the text. -/
@[simp] theorem textOf_map_plain (t : Text) : textOf (t.map .plain) = t := by
  induction t with
  | nil => rfl
  | cons c r ih => rw [List.map_cons, textOf_cons, ih]; rfl

/-- There are no literals among them. -/
theorem spansFrom_map_plain (offset : Nat) (t : Text) : spansFrom offset (t.map .plain) = [] := by
  induction t generalizing offset with
  | nil => rfl
  | cons c r ih => exact ih _

/-- A text without quotes and slashes has no literals. -/
theorem literalSpans_of_freeOf {t : Text} (ht : FreeOf literalMarks t) : literalSpans t = [] := by
  rw [literalSpans, pieces_of_freeOf ht, spansFrom_map_plain]

/-! ### Closing delimiters -/

/-- The search for a closing brace goes along with the count of braces, also
inside further ones. -/
theorem closePieces?_of_bracesBehind {depth depth' : Nat} {t : Text}
    (h : bracesBehind depth t = some depth') (more : Nat) (rest : List Piece) :
    Delimiter.brace.closePieces? (depth + more + 1) (t.map .plain ++ rest)
      = (Delimiter.brace.closePieces? (depth' + more + 1) rest).map
          fun found => (t.map .plain ++ found.1, found.2) := by
  -- The `more` braces around the text are not closed in it, so they stay as they are.
  induction t generalizing depth with
  | nil =>
      obtain rfl : depth = depth' := Option.some.inj h
      simp
  | cons c r ih =>
      rw [List.map_cons, List.cons_append]
      by_cases hopen : c = '{'
      · subst hopen
        have hr : bracesBehind (depth + 1) r = some depth' := by simpa [bracesBehind] using h
        have hrest := ih hr
        rw [Nat.add_right_comm depth 1 more] at hrest
        rw [closePieces?_open, hrest, Option.map_map]
        rfl
      · by_cases hclose : c = '}'
        · subst hclose
          cases depth with
          | zero => simp [bracesBehind] at h
          | succ depth =>
              have hr : bracesBehind depth r = some depth' := by simpa [bracesBehind] using h
              rw [Nat.add_right_comm depth 1 more, closePieces?_close, ih hr, Option.map_map]
              rfl
        · have hr : bracesBehind depth r = some depth' := by
            simpa [bracesBehind, hopen, hclose] using h
          rw [closePieces?_other (by simpa using hopen) (by simpa using hclose), ih hr,
            Option.map_map]
          rfl

/-- A search for a closing brace passes over a balanced text. -/
theorem BraceNeutral.of_balanced {t : Text} (h : Balanced t) : BraceNeutral (t.map .plain) := by
  intro depth rest
  simpa using closePieces?_of_bracesBehind h depth rest

/-- The brace that closes a block stands behind a balanced body. -/
theorem close?_block {body rest : Text} (hbody : Balanced body)
    (hfree : FreeOf literalMarks body) (hrest : FreeOf literalMarks rest) :
    Delimiter.brace.close? ('{' :: (body ++ '}' :: rest)) = some ('{' :: body, rest) := by
  have hpieces : pieces ('{' :: (body ++ '}' :: rest))
      = .plain '{' :: (body.map .plain ++ .plain '}' :: rest.map .plain) := by
    rw [pieces_of_freeOf (freeOf_cons.mpr ⟨by decide, freeOf_append.mpr ⟨hfree,
      freeOf_cons.mpr ⟨by decide, hrest⟩⟩⟩)]
    simp
  rw [Delimiter.close?, hpieces, closePieces?_block (.of_balanced hbody)]
  simp [Piece.text]

/-- The search for a closing parenthesis goes over a text without
parentheses. -/
theorem closePieces?_of_freeOf {t : Text} (ht : FreeOf ['(', ')'] t) (rest : List Piece) :
    Delimiter.paren.closePieces? 1 (t.map .plain ++ .plain ')' :: rest)
      = some (t.map .plain, rest) := by
  induction t with
  | nil => simp [Delimiter.closePieces?, Delimiter.closing]
  | cons c r ih =>
      obtain ⟨hc, hr⟩ := freeOf_cons.mp ht
      simp only [List.mem_cons, List.not_mem_nil, or_false, not_or] at hc
      rw [List.map_cons, List.cons_append, closePieces?_cons (by simp [Delimiter.closing, hc])]
      simp [Delimiter.opening, Delimiter.closing, hc, ih hr]

/-- The parenthesis that closes a list stands behind what has no parentheses. -/
theorem close?_paren {inside rest : Text} (hinside : FreeOf ['(', ')'] inside)
    (hfree : FreeOf literalMarks inside) (hrest : FreeOf literalMarks rest) :
    Delimiter.paren.close? ('(' :: (inside ++ ')' :: rest)) = some ('(' :: inside, rest) := by
  have hpieces : pieces ('(' :: (inside ++ ')' :: rest))
      = .plain '(' :: (inside.map .plain ++ .plain ')' :: rest.map .plain) := by
    rw [pieces_of_freeOf (freeOf_cons.mpr ⟨by decide, freeOf_append.mpr ⟨hfree,
      freeOf_cons.mpr ⟨by decide, hrest⟩⟩⟩)]
    simp
  rw [Delimiter.close?, hpieces, closePieces?_cons (by simp [Delimiter.closing])]
  simp [Delimiter.opening, closePieces?_of_freeOf hinside, Piece.text]

/-! ### Rows of texts and blocks -/

namespace Block

variable {search : Search} {spans : List Span} {behind : Text}

/-- Without literals the search has no spans to look at. -/
theorem cut_of_freeOf {t : Text} (ht : FreeOf literalMarks t) :
    cut search t = cutFrom search [] [] t := by
  rw [cut, literalSpans_of_freeOf ht]

/-- Nothing is left to search. -/
theorem cutFrom_nil_of_at? (hat : at? search spans behind [] = .ok none) :
    cutFrom search spans behind [] = .ok (.whole []) := by
  rw [cutFrom]
  split <;> simp_all

/-- One character at which no block begins. -/
theorem cutFrom_cons_of_at? {c : Char} {rest : Text}
    (hat : at? search spans behind (c :: rest) = .ok none) :
    cutFrom search spans behind (c :: rest)
      = (cutFrom search spans (c :: behind) rest).map (Cut.prepend [c]) := by
  rw [cutFrom]
  split
  · simp_all
  · simp_all
  · dsimp only
    cases cutFrom search spans (c :: behind) rest <;> rfl

/-- A block, and what is found behind it. -/
theorem cutFrom_of_at? {ahead rest : Text} {b : Block}
    (hat : at? search spans behind ahead = .ok (some (b, rest))) :
    cutFrom search spans behind ahead
      = (cutFrom search spans (b.full.reverse ++ behind) rest).map (Cut.item b) := by
  rw [cutFrom]
  split
  · simp_all
  · rename_i b' rest' hfound
    rw [hat] at hfound
    cases hfound
    cases cutFrom search spans (b.full.reverse ++ behind) rest <;> rfl
  · simp_all

/-- At the end there is no block, if the pattern does not match nothing. -/
theorem cutFrom_nil (hnil : search.pattern [] = none) :
    cutFrom search spans behind [] = .ok (.whole []) :=
  cutFrom_nil_of_at? (by simp [at?, hnil])

/-- One character at which no header begins. -/
theorem cutFrom_cons {c : Char} {rest : Text} (hc : search.pattern (c :: rest) = none) :
    cutFrom search spans behind (c :: rest)
      = (cutFrom search spans (c :: behind) rest).map (Cut.prepend [c]) :=
  cutFrom_cons_of_at? (by simp [at?, hc])

/-- The search goes over a text in which no header begins. -/
theorem cutFrom_text {t : Text} (ht : ∀ c ∈ t, ∀ r, search.pattern (c :: r) = none)
    {rest : Text} {cut : Cut Block}
    (hrest : cutFrom search spans (t.reverse ++ behind) rest = .ok cut) :
    cutFrom search spans behind (t ++ rest) = .ok (cut.prepend t) := by
  induction t generalizing behind with
  | nil =>
      have hprepend : cut.prepend [] = cut := by
        obtain ⟨parts, rest⟩ := cut
        cases parts <;> rfl
      rw [hprepend]
      exact hrest
  | cons c t ih =>
      obtain ⟨hc, ht⟩ := List.forall_mem_cons.mp ht
      have hprepend : cut.prepend (c :: t) = (cut.prepend t).prepend [c] := by
        obtain ⟨parts, rest⟩ := cut
        cases parts <;> rfl
      have htail : cutFrom search spans (c :: behind) (t ++ rest) = .ok (cut.prepend t) := by
        refine ih ht ?_
        simpa using hrest
      rw [List.cons_append, cutFrom_cons (hc _), htail, hprepend]
      rfl

/-- A block is found where the pattern takes all up to its opening brace. -/
theorem at?_of_close? {header rest body after : Text} {groups : List (Option Text)}
    (hdelimiter : search.delimiter = .brace) (haccept : search.accept behind = true)
    (houtside : insideAny spans (Text.size behind) = false)
    (hpattern : search.pattern (header ++ '{' :: rest) = some ⟨header.length, groups⟩)
    (hclose : Delimiter.brace.close? ('{' :: rest) = some ('{' :: body, after)) :
    ∃ b : Block, b.groups = groups ∧ b.body = body ∧ b.full = header ++ '{' :: (body ++ ['}'])
      ∧ at? search spans behind (header ++ '{' :: rest) = .ok (some (b, after)) := by
  let b : Block :=
    { start := Text.size behind
      stop := Text.size behind + Text.size (header ++ '{' :: (body ++ ['}']))
      header, groups, body, full := header ++ '{' :: (body ++ ['}']) }
  have hblank : isBlank '{' = false := by decide
  refine ⟨b, rfl, rfl, rfl, ?_⟩
  simp [at?, hpattern, hdelimiter, haccept, houtside, hblank, Delimiter.opening, Delimiter.closing,
    hclose, b]

/-- The search finds a block whose body is balanced, and goes on behind
it. -/
theorem cutFrom_block {search : Search} {behind header body rest : Text}
    {groups : List (Option Text)} (hdelimiter : search.delimiter = .brace)
    (haccept : search.accept behind = true)
    (hpattern : search.pattern (header ++ '{' :: (body ++ '}' :: rest))
      = some ⟨header.length, groups⟩)
    (hbody : Balanced body) (hfree : FreeOf literalMarks body) (hfree' : FreeOf literalMarks rest)
    {cut : Cut Block}
    (hrest : cutFrom search [] ((header ++ '{' :: (body ++ ['}'])).reverse ++ behind) rest = .ok cut) :
    ∃ b : Block, b.groups = groups ∧ b.body = body ∧
      cutFrom search [] behind (header ++ '{' :: (body ++ '}' :: rest)) = .ok (cut.item b) := by
  have houtside : insideAny [] (Text.size behind) = false := rfl
  obtain ⟨b, hgroups, hinside, hfull, hat⟩ :=
    at?_of_close? hdelimiter haccept houtside hpattern (close?_block hbody hfree hfree')
  refine ⟨b, hgroups, hinside, ?_⟩
  rw [cutFrom_of_at? hat, hfull, hrest]
  rfl

end Block

end Stylesheet
