import Stylesheet.Comment
import Stylesheet.Proofs.Collapse
import Stylesheet.Proofs.Separators

/-!
# Line comments are taken off the ends of lines

`stripLineComments` drops what stands between a `//` and the end of its line.
What is dropped may hold quotes and comment marks, and what is kept may hold a
`//` in a literal, so it is not clear at once that what is kept is read as it
was. `stripLineComments_lines` says what comes of it: each line of the result is
the front of the same line of the text (`KeepsLine`), a text changes only if
a comment begins in it (`BeginsLineComment`), and stripping the result changes
nothing.

The lines are compared along the steps of `stripLineCommentsFrom`
(`linesKept_strip`), and the same steps lead over the result (`strip_strip`). A
literal is not changed by what becomes of the text behind it: it is closed, or
it ends with its line, and then the line feed is kept. Nor does a slash meet
another character than before, because it is no blank and so no comment begins
behind it.
-/

set_option autoImplicit false

namespace Stylesheet

open Text

/-! ### Lines -/

/-- The lines of a text, without their line feeds. -/
def Text.lines (t : Text) : List Text := splitWhere (· == '\n') t

/-- A line feed at the front ends an empty line. -/
theorem Text.lines_cons_newline (t : Text) : lines ('\n' :: t) = [] :: lines t :=
  splitWhere_cons_of_pos (by decide) t

/-- Whether a comment may begin behind a text. `start` says whether it may
begin at the front of the text. -/
def mayBegin (start : Bool) (before : Text) : Bool := (before.getLast?.map isAsciiBlank).getD start

/-- At the front of the text it may, and behind a blank. -/
theorem mayBegin_iff {before : Text} :
    mayBegin true before = true ↔ ∀ c ∈ before.getLast?, isAsciiBlank c = true := by
  unfold mayBegin
  cases before.getLast? <;> simp

/-- Behind a character it is the last one that counts. -/
theorem mayBegin_cons (start : Bool) (c : Char) (before : Text) :
    mayBegin start (c :: before) = mayBegin (isAsciiBlank c) before := by
  unfold mayBegin
  rw [List.getLast?_cons]
  cases before.getLast? <;> rfl

/-- Behind two texts, from the first one to the second. -/
theorem mayBegin_append (start : Bool) (s before : Text) :
    mayBegin start (s ++ before) = mayBegin (mayBegin start s) before := by
  induction s generalizing start with
  | nil => rfl
  | cons c s ih => rw [List.cons_append, mayBegin_cons, ih, mayBegin_cons]

/-- What is kept of a line is its front, and what is removed is a comment, if
anything. -/
def KeepsLine (start : Bool) (kept line : Text) : Prop :=
  ∃ removed, line = kept ++ removed
    ∧ (removed = [] ∨ ['/', '/'] <+: removed ∧ mayBegin start kept = true)

/-- What is kept of each line of a text. A comment may begin at the front of
every line but the first, where `start` says so. -/
def LinesKept (start : Bool) (kept t : Text) : Prop :=
  ∃ first others line later, kept.lines = first :: others ∧ t.lines = line :: later
    ∧ KeepsLine start first line ∧ List.Forall₂ (KeepsLine true) others later

namespace LinesKept

variable {start : Bool} {kept t : Text}

/-- There is nothing to remove. -/
theorem nil (start : Bool) : LinesKept start [] [] :=
  ⟨[], [], [], [], rfl, rfl, ⟨[], rfl, .inl rfl⟩, .nil⟩

/-- A character that is kept, be it the end of a line or not. -/
theorem cons {c : Char} (h : LinesKept (isAsciiBlank c) kept t) :
    LinesKept start (c :: kept) (c :: t) := by
  obtain ⟨first, others, line, later, hkept, ht, hfirst, hlater⟩ := h
  by_cases hc : c = '\n'
  · subst hc
    refine ⟨[], kept.lines, [], t.lines, lines_cons_newline kept, lines_cons_newline t,
      ⟨[], rfl, .inl rfl⟩, ?_⟩
    rw [hkept, ht]
    exact .cons hfirst hlater
  · have hneg : (c == '\n') = false := beq_false_of_ne hc
    obtain ⟨first', others', heq, hkept'⟩ := splitWhere_cons_of_neg (p := (· == '\n')) hneg kept
    obtain ⟨line', later', heq', ht'⟩ := splitWhere_cons_of_neg (p := (· == '\n')) hneg t
    obtain ⟨rfl, rfl⟩ := List.cons.inj (hkept.symm.trans heq)
    obtain ⟨rfl, rfl⟩ := List.cons.inj (ht.symm.trans heq')
    obtain ⟨removed, rfl, hremoved⟩ := hfirst
    refine ⟨c :: first, others, c :: (first ++ removed), later, hkept', ht', ⟨removed, rfl, ?_⟩, hlater⟩
    rwa [mayBegin_cons]

/-- A text that is kept. -/
theorem append {s : Text} (h : LinesKept (mayBegin start s) kept t) :
    LinesKept start (s ++ kept) (s ++ t) := by
  induction s generalizing start with
  | nil => exact h
  | cons c s ih =>
      rw [mayBegin_cons] at h
      exact cons (ih h)

/-- A comment that ends with its line. -/
theorem comment {removed : Text} (h : LinesKept false kept t) (hmark : ['/', '/'] <+: removed)
    (hremoved : ∀ c ∈ removed, (c == '\n') = false) (ht : ∀ c ∈ t.head?, c = '\n') :
    LinesKept true kept (removed ++ t) := by
  obtain ⟨first, others, line, later, hkept, hlines, ⟨more, hmore, -⟩, hlater⟩ := h
  -- Nothing is left of the line behind the comment.
  have hsplit : line = [] ∧ (removed ++ t).lines = removed :: later := by
    cases t with
    | nil =>
        obtain ⟨rfl, rfl⟩ := List.cons.inj hlines
        rw [List.append_nil]
        exact ⟨rfl, List.splitOnP_eq_singleton hremoved⟩
    | cons c r =>
        obtain rfl := ht c rfl
        rw [lines_cons_newline] at hlines
        obtain ⟨rfl, rfl⟩ := List.cons.inj hlines
        exact ⟨rfl, List.splitOnP_append_cons_of_forall_mem hremoved '\n' (by decide) r⟩
  obtain ⟨rfl, hline⟩ := hsplit
  obtain ⟨rfl, rfl⟩ := List.append_eq_nil_iff.mp hmore.symm
  exact ⟨[], others, removed, later, hkept, hline, ⟨removed, rfl, .inr ⟨hmark, rfl⟩⟩, hlater⟩

end LinesKept

/-! ### The steps -/

/-- A comment of a line begins with two slashes. -/
theorem isPrefixOf_slashes {c : Char} {r : Text} :
    ['/', '/'].isPrefixOf (c :: r) = true ↔ c = '/' ∧ r.head? = some '/' := by
  cases r with
  | nil => simp [List.isPrefixOf]
  | cons d r => simp [List.isPrefixOf, @eq_comm Char '/']

/-- A comment with the rest of its line, and what stands behind it. -/
theorem exists_comment {t : Text} (hmark : ['/', '/'].isPrefixOf t = true) :
    ∃ removed, t = removed ++ t.tail.dropWhile (· != '\n') ∧ ['/', '/'] <+: removed
      ∧ (∀ d ∈ removed, (d == '\n') = false)
      ∧ ∀ d ∈ (t.tail.dropWhile (· != '\n')).head?, d = '\n' := by
  obtain ⟨more, rfl⟩ := List.isPrefixOf_iff_prefix.mp hmark
  refine ⟨'/' :: ('/' :: more).takeWhile (· != '\n'), ?_, ⟨more.takeWhile (· != '\n'), rfl⟩, ?_, ?_⟩
  · exact congrArg _ List.takeWhile_append_dropWhile.symm
  · rw [List.forall_mem_cons]
    refine ⟨by decide, fun d hd => ?_⟩
    simpa using List.mem_takeWhile_imp hd
  · intro d hd
    have hnot := List.head?_dropWhile_not (· != '\n') (['/', '/'] ++ more).tail
    rw [Option.mem_def.mp hd] at hnot
    simpa using hnot

section

variable {start : Bool} {c : Char} {r t rest : Text} {p : Piece}

/-- Behind a text that is not empty the start does not matter. -/
theorem mayBegin_of_ne_nil {before : Text} (h : before ≠ []) (start : Bool) :
    mayBegin start before = mayBegin false before := by
  obtain ⟨c, before, rfl⟩ := List.exists_cons_of_ne_nil h
  rw [mayBegin_cons, mayBegin_cons]

/-- No comment of a line begins where a literal does. -/
theorem isPrefixOf_of_take? (h : Literal.take? t = some (p, rest)) :
    ['/', '/'].isPrefixOf t = false := by
  rcases Literal.take?_cases h with ⟨q, r, hq, rfl, -⟩ | ⟨r, rfl, -⟩
  · have hne := Literal.ne_of_isQuote hq (c := '/') (by decide)
    simp [List.isPrefixOf, hne.symm]
  · rfl

/-- A literal is kept. -/
theorem strip_literal (h : Literal.take? t = some (p, rest)) :
    stripLineCommentsFrom start t = p.text ++ stripLineCommentsFrom (mayBegin start p.text) rest := by
  have hmark := isPrefixOf_of_take? h
  have hlast := mayBegin_of_ne_nil (Literal.text_ne_nil_of_take? h) start
  cases t with
  | nil => cases h
  | cons c r =>
      rw [stripLineCommentsFrom, hmark, Bool.and_false, if_neg Bool.false_ne_true, hlast]
      split
      · rename_i htake
        rw [h] at htake
        cases htake
        rfl
      · rename_i htake
        rw [h] at htake
        cases htake

/-- A character that begins neither a literal nor a comment is kept. -/
theorem strip_plain (h : Literal.take? (c :: r) = none)
    (hmark : ¬ (start && ['/', '/'].isPrefixOf (c :: r)) = true) :
    stripLineCommentsFrom start (c :: r) = c :: stripLineCommentsFrom (isAsciiBlank c) r := by
  rw [stripLineCommentsFrom, if_neg hmark]
  split
  · rename_i htake
    rw [h] at htake
    cases htake
  · rfl

/-- The end of a line is kept, and behind it a comment may begin. -/
theorem strip_newline (start : Bool) (r : Text) :
    stripLineCommentsFrom start ('\n' :: r) = '\n' :: stripLineCommentsFrom true r :=
  strip_plain (Literal.take?_eq_none.mpr ⟨by decide, by simp⟩) (by simp)

/-- Where no comment may begin, the first character stays. -/
theorem head?_strip (t : Text) : (stripLineCommentsFrom false t).head? = t.head? := by
  cases t with
  | nil => rw [stripLineCommentsFrom]
  | cons c r =>
      cases htake : Literal.take? (c :: r) with
      | none => rw [strip_plain htake (by simp)]; rfl
      | some found =>
          obtain ⟨p, rest⟩ := found
          have hne := Literal.text_ne_nil_of_take? htake
          rw [strip_literal htake, ← Literal.text_append_of_take? htake,
            List.head?_append_of_ne_nil _ hne, List.head?_append_of_ne_nil _ hne]

/-- It matters only before a slash whether a comment may begin. -/
theorem strip_of_head? (h : t.head? ≠ some '/') (start : Bool) :
    stripLineCommentsFrom start t = stripLineCommentsFrom false t := by
  cases t with
  | nil => rw [stripLineCommentsFrom, stripLineCommentsFrom]
  | cons c r =>
      cases htake : Literal.take? (c :: r) with
      | none =>
          have hc : '/' ≠ c := fun hc => h (congrArg some hc.symm)
          rw [strip_plain htake (by simp [List.isPrefixOf, hc]), strip_plain htake (by simp)]
      | some found =>
          rw [strip_literal htake, strip_literal htake,
            mayBegin_of_ne_nil (Literal.text_ne_nil_of_take? htake)]

/-- A literal is the same before what is left of the text behind it. -/
theorem take?_strip (h : Literal.take? t = some (p, rest)) (start : Bool) :
    Literal.take? (p.text ++ stripLineCommentsFrom start rest)
      = some (p, stripLineCommentsFrom start rest) := by
  by_cases hclosed : p.closed = true
  · have halone := Literal.take?_of_isPrefix h (List.nil_prefix (l := rest))
    rw [List.append_nil] at halone
    exact Literal.take?_append halone (fun _ => hclosed) _
  · cases rest with
    | nil =>
        rw [stripLineCommentsFrom]
        exact Literal.take?_of_isPrefix h List.nil_prefix
    | cons c r =>
        -- The string ends with its line, and no comment takes the line feed.
        obtain rfl : c = '\n' := by
          by_contra hc
          exact hclosed (Literal.closed_of_rest h (List.cons_ne_nil c r) (by simpa using hc))
        have hline := Literal.take?_of_isPrefix h (List.prefix_append ['\n'] r)
        rw [strip_newline, List.append_cons]
        exact Literal.take?_append hline (fun hnil => absurd hnil (List.cons_ne_nil _ _)) _

end

/-- Stripping does this to the lines of a text, by induction on how it goes
over it. -/
theorem linesKept_strip (start : Bool) (t : Text) :
    LinesKept start (stripLineCommentsFrom start t) t := by
  fun_induction stripLineCommentsFrom start t with
  | case1 start => exact .nil start
  | case2 start c r hmark ih =>
      rw [Bool.and_eq_true] at hmark
      obtain ⟨rfl, hmark⟩ := hmark
      obtain ⟨removed, heq, hslashes, hline, hrest⟩ := exists_comment hmark
      rw [heq]
      exact ih.comment hslashes hline hrest
  | case3 start c r hmark p rest htake ih =>
      rw [← Literal.text_append_of_take? htake]
      refine .append ?_
      rwa [mayBegin_of_ne_nil (Literal.text_ne_nil_of_take? htake)]
  | case4 start c r hmark htake ih => exact .cons ih

/-- Stripping what is left changes nothing. -/
theorem strip_strip (start : Bool) (t : Text) :
    stripLineCommentsFrom start (stripLineCommentsFrom start t) = stripLineCommentsFrom start t := by
  fun_induction stripLineCommentsFrom start t with
  | case1 start => rw [stripLineCommentsFrom]
  | case2 start c r hmark ih =>
      rw [Bool.and_eq_true] at hmark
      obtain ⟨removed, -, -, -, hrest⟩ := exists_comment hmark.2
      rw [strip_of_head?, ih]
      intro hslash
      rw [head?_strip] at hslash
      cases hrest '/' hslash
  | case3 start c r hmark p rest htake ih =>
      have hlast := mayBegin_of_ne_nil (Literal.text_ne_nil_of_take? htake) start
      rw [strip_literal (take?_strip htake _), hlast]
      exact congrArg (p.text ++ ·) ih
  | case4 start c r hmark htake ih =>
      -- Behind a slash no comment begins, so what follows it is what followed before.
      have hnext : c = '/' → (stripLineCommentsFrom (isAsciiBlank c) r).head? = r.head? := by
        rintro rfl
        exact head?_strip r
      rw [Literal.take?_eq_none] at htake
      rw [strip_plain, ih]
      · refine Literal.take?_eq_none.mpr ⟨htake.1, fun hc => ?_⟩
        rw [hnext hc]
        exact htake.2 hc
      · rw [Bool.and_eq_true, isPrefixOf_slashes] at hmark ⊢
        rintro ⟨hstart, hc, hslash⟩
        rw [hnext hc] at hslash
        exact hmark ⟨hstart, hc, hslash⟩

/-! ### Where comments begin -/

/-- A comment of a line begins at a place, which is given by what stands before
it, nearest character first, and what lies ahead. -/
structure BeginsLineComment (t behind ahead : Text) : Prop where
  divides : t = behind.reverse ++ ahead
  mark : ['/', '/'] <+: ahead
  boundary : ∀ c ∈ behind.head?, isAsciiBlank c = true
  outside : ¬ InLiteral t (Text.size behind)

/-- Stripping makes no text longer. -/
theorem length_strip_le (start : Bool) (t : Text) :
    (stripLineCommentsFrom start t).length ≤ t.length := by
  fun_induction stripLineCommentsFrom start t with
  | case1 start => exact Nat.le_refl 0
  | case2 start c r hmark ih =>
      have hrest := (List.dropWhile_suffix (l := r) (· != '\n')).length_le
      rw [List.length_cons]
      omega
  | case3 start c r hmark p rest htake ih =>
      rw [← Literal.text_append_of_take? htake, List.length_append, List.length_append]
      exact Nat.add_le_add_left ih _
  | case4 start c r hmark htake ih => exact Nat.succ_le_succ ih

/-- No comment of a line begins among some pieces: nowhere does a slash stand
alone, with another one behind it, where a comment may begin. -/
def NoLineComment (start : Bool) (ps : List Piece) : Prop :=
  ∀ before after, ps = before ++ .plain '/' :: after → (textOf after).head? = some '/' →
    mayBegin start (textOf before) = false

/-- The condition on the first piece, and on the others. -/
theorem noLineComment_cons {start : Bool} {p : Piece} {ps : List Piece} :
    NoLineComment start (p :: ps)
      ↔ (p = .plain '/' → (textOf ps).head? = some '/' → start = false)
        ∧ NoLineComment (mayBegin start p.text) ps := by
  constructor
  · intro h
    refine ⟨?_, ?_⟩
    · rintro rfl hslash
      exact h [] ps rfl hslash
    · rintro before after rfl hslash
      rw [← mayBegin_append, ← textOf_cons]
      exact h (p :: before) after rfl hslash
  · rintro ⟨hfirst, hothers⟩ before after heq hslash
    cases before with
    | nil =>
        obtain ⟨rfl, rfl⟩ := List.cons.inj heq
        exact hfirst rfl hslash
    | cons p' before =>
        obtain ⟨rfl, rfl⟩ := List.cons.inj heq
        rw [textOf_cons, mayBegin_append]
        exact hothers before after rfl hslash

/-- A text stays as it is if no comment begins in it, and only then. -/
theorem strip_eq_self_iff (start : Bool) (t : Text) :
    stripLineCommentsFrom start t = t ↔ NoLineComment start (pieces t) := by
  fun_induction stripLineCommentsFrom start t with
  | case1 start => simp [NoLineComment, pieces]
  | case2 start c r hmark ih =>
      -- At a comment something is removed, so the text
      -- is shorter, and the pieces show the slash.
      have hne : stripLineCommentsFrom false (r.dropWhile (· != '\n')) ≠ c :: r := by
        intro heq
        have hlength := length_strip_le false (r.dropWhile (· != '\n'))
        have hrest := (List.dropWhile_suffix (l := r) (· != '\n')).length_le
        rw [heq, List.length_cons] at hlength
        omega
      rw [Bool.and_eq_true, isPrefixOf_slashes] at hmark
      obtain ⟨rfl, rfl, hslash⟩ := hmark
      have hplain : pieces ('/' :: r) = .plain '/' :: pieces r :=
        pieces_of_plain (Literal.take?_eq_none.mpr ⟨by decide, fun _ => by simp [hslash]⟩)
      rw [hplain, noLineComment_cons, text_pieces]
      exact ⟨fun heq => absurd heq hne, fun h => absurd (h.1 rfl hslash) (by decide)⟩
  | case3 start c r hmark p rest htake ih =>
      have hlast := mayBegin_of_ne_nil (Literal.text_ne_nil_of_take? htake) start
      have hliteral : p ≠ .plain '/' := by
        rcases Literal.take?_cases htake with ⟨q, r, -, -, rfl, -⟩ | ⟨r, -, rfl, -⟩ <;> simp
      rw [pieces_of_take? htake, noLineComment_cons, hlast, ← Literal.text_append_of_take? htake,
        List.append_cancel_left_eq]
      exact ih.trans ⟨fun h => ⟨fun hp => absurd hp hliteral, h⟩, And.right⟩
  | case4 start c r hmark htake ih =>
      rw [pieces_of_plain htake, noLineComment_cons, List.cons.injEq, ih, text_pieces]
      rw [Bool.and_eq_true, isPrefixOf_slashes] at hmark
      refine ⟨fun h => ⟨fun hc hslash => ?_, h.2⟩, fun h => ⟨rfl, h.2⟩⟩
      exact Bool.eq_false_iff.mpr fun hstart => hmark ⟨hstart, Piece.plain.inj hc, hslash⟩

/-- The same by the places of a text. -/
theorem noLineComment_pieces {t : Text} :
    NoLineComment true (pieces t) ↔ ∀ behind ahead, ¬ BeginsLineComment t behind ahead := by
  constructor
  · rintro h behind ahead ⟨rfl, ⟨more, rfl⟩, hboundary, houtside⟩
    rw [← Text.size_reverse] at houtside
    -- A place outside literals divides the pieces, and the slash there stands alone.
    obtain ⟨before, after, hpieces, hbefore, hafter⟩ := exists_pieces_of_outside houtside
    have hnot := h before after hpieces (by rw [hafter]; rfl)
    rw [hbefore, Bool.eq_false_iff, ne_eq, mayBegin_iff, List.getLast?_reverse] at hnot
    exact hnot hboundary
  · intro h before after hpieces hslash
    rw [Bool.eq_false_iff, ne_eq, mayBegin_iff]
    intro hbegin
    obtain ⟨r, hr⟩ := List.head?_eq_some_iff.mp hslash
    have htext := text_pieces t
    rw [hpieces, textOf_append, textOf_cons] at htext
    refine h (textOf before).reverse ('/' :: textOf after) ⟨?_, ?_, ?_, ?_⟩
    · rw [List.reverse_reverse]
      exact htext.symm
    · rw [hr]
      exact ⟨r, rfl⟩
    · rwa [List.head?_reverse]
    · rw [Text.size_reverse]
      exact (mem_positions_pieces.mp (mem_positions.mpr ⟨before, after, hpieces, by simp⟩)).2

/-- Stripping line comments keeps the lines of a text. Each line of the result is
the front of the same line of the text, and what is missing begins with `//` behind
a blank or where the line begins. Nothing changes exactly if no comment begins in the
text, and so nothing changes when the result is stripped again. -/
theorem stripLineComments_lines (t : Text) :
    List.Forall₂ (fun kept line => ∃ removed, line = kept ++ removed
        ∧ (removed = [] ∨ ['/', '/'] <+: removed ∧ ∀ c ∈ kept.getLast?, isAsciiBlank c = true))
      (stripLineComments t).lines t.lines
    ∧ (stripLineComments t = t ↔ ∀ behind ahead, ¬ BeginsLineComment t behind ahead)
    ∧ stripLineComments (stripLineComments t) = stripLineComments t := by
  refine ⟨?_, (strip_eq_self_iff true t).trans noLineComment_pieces, strip_strip true t⟩
  obtain ⟨first, others, line, later, hkept, hlines, hfirst, hlater⟩ := linesKept_strip true t
  rw [stripLineComments, hkept, hlines]
  refine (List.Forall₂.cons hfirst hlater).imp ?_
  rintro kept line ⟨removed, rfl, hremoved⟩
  exact ⟨removed, rfl, hremoved.imp_right fun h => ⟨h.1, mayBegin_iff.mp h.2⟩⟩

-- A mark in a string and one behind a letter stay. The comment holds a quote and opens a
-- comment, and neither reaches the next line.
example : stripLineComments "a:'x // y'; // don't /*\nu(b//c) //d".toList
    = "a:'x // y'; \nu(b//c) ".toList := by
  decide +kernel

end Stylesheet
