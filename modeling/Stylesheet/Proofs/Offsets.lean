import Mathlib.Order.Interval.Finset.Nat
import Stylesheet.Literal

/-!
# Byte positions

A position of a text is the size of what stands before it, and most
positions of a text with wide characters are inside one of them.
`Text.charAt?` says which character begins at a position, if any does.
Spans are pairs of positions, so whether a position is in a literal
(`InLiteral`) can be said without pieces.

Scanners work on pieces. `mem_positions_pieces` is the step between the two:
the characters that stand alone among the pieces are those that begin at a
position outside literals. So counting them along a row of pieces is counting
positions in an interval (`card_standsOutside`).
-/

set_option autoImplicit false

namespace Stylesheet

namespace Text

/-! ### Characters at positions -/

/-- The character that begins at a byte position. -/
def charAt? : Text → Nat → Option Char
  | [], _ => none
  | c :: _, 0 => some c
  | c :: r, offset + 1 =>
    if c.utf8Size ≤ offset + 1 then charAt? r (offset + 1 - c.utf8Size) else none

/-- The text between two byte positions. -/
def slice (t : Text) (start stop : Nat) : Text :=
  (splitAtByte (stop - start) (splitAtByte start t).2).1

/-- The texts that stand before a place are kept nearest character first and
have the same size. -/
theorem size_reverse (t : Text) : size t.reverse = size t := by
  induction t with
  | nil => rfl
  | cons c t ih =>
      rw [List.reverse_cons, size_append, ih, size_cons, size_cons, size_nil]
      omega

/-- A text that is not empty has a byte. -/
theorem size_pos {t : Text} (h : t ≠ []) : 0 < size t := by
  obtain ⟨c, r, rfl⟩ := List.exists_cons_of_ne_nil h
  have hpos := c.utf8Size_pos
  rw [size_cons]
  omega

/-- Cutting at the size of what stands in front. -/
theorem splitAtByte_size (front back : Text) :
    splitAtByte (size front) (front ++ back) = (front, back) := by
  induction front with
  | nil =>
      cases back <;> rfl
  | cons c front ih =>
      obtain ⟨n, hn⟩ : ∃ n, c.utf8Size + size front = n + 1 :=
        ⟨c.utf8Size + size front - 1, by have := c.utf8Size_pos; omega⟩
      have hrest : n + 1 - c.utf8Size = size front := by omega
      rw [size_cons, hn, List.cons_append, splitAtByte, hrest, ih]

/-- A position divides a text in one way. -/
theorem append_inj_of_size {front front' back back' : Text} (h : front ++ back = front' ++ back')
    (hsize : size front = size front') : front = front' ∧ back = back' := by
  have hcut := splitAtByte_size front back
  rw [h, hsize, splitAtByte_size] at hcut
  obtain ⟨hfront, hback⟩ := Prod.mk.inj hcut
  exact ⟨hfront.symm, hback.symm⟩

/-- The text between the end of what stands in front and its own. -/
theorem slice_size (front inside back : Text) :
    slice (front ++ (inside ++ back)) (size front) (size front + size inside) = inside := by
  rw [slice, splitAtByte_size, Nat.add_sub_cancel_left, splitAtByte_size]

/-- At the front the first character begins. -/
theorem charAt?_zero (t : Text) : charAt? t 0 = t.head? := by
  cases t <;> rfl

/-- No character begins within another one. -/
theorem charAt?_cons_of_lt {c : Char} {offset : Nat} (hpos : 0 < offset)
    (h : offset < c.utf8Size) (r : Text) : charAt? (c :: r) offset = none := by
  obtain ⟨n, rfl⟩ := Nat.exists_eq_succ_of_ne_zero (Nat.ne_of_gt hpos)
  rw [charAt?, if_neg (by omega)]

/-- Behind the first character, the place is counted from its end. -/
theorem charAt?_cons_add (c : Char) (r : Text) (offset : Nat) :
    charAt? (c :: r) (c.utf8Size + offset) = charAt? r offset := by
  obtain ⟨n, hn⟩ : ∃ n, c.utf8Size + offset = n + 1 :=
    ⟨c.utf8Size + offset - 1, by have := c.utf8Size_pos; omega⟩
  rw [hn, charAt?, if_pos (by omega)]
  congr 1
  omega

/-- Behind a text, the place is counted from its end. -/
theorem charAt?_append_size (front back : Text) (offset : Nat) :
    charAt? (front ++ back) (size front + offset) = charAt? back offset := by
  induction front with
  | nil => rw [size_nil, Nat.zero_add]; rfl
  | cons c front ih => rw [List.cons_append, size_cons, Nat.add_assoc, charAt?_cons_add, ih]

/-- A place within a text does not depend on what follows. -/
theorem charAt?_append_of_lt {front : Text} {offset : Nat} (h : offset < size front) (back : Text) :
    charAt? (front ++ back) offset = charAt? front offset := by
  induction front generalizing offset with
  | nil => exact absurd h (Nat.not_lt_zero _)
  | cons c front ih =>
      rcases Nat.lt_or_ge offset c.utf8Size with hlt | hge
      · rcases Nat.eq_zero_or_pos offset with rfl | hpos
        · rfl
        · rw [List.cons_append, charAt?_cons_of_lt hpos hlt, charAt?_cons_of_lt hpos hlt]
      · obtain ⟨k, rfl⟩ := Nat.exists_eq_add_of_le hge
        rw [size_cons] at h
        rw [List.cons_append, charAt?_cons_add, charAt?_cons_add, ih (by omega)]

/-- No character begins behind the end. -/
theorem lt_size_of_charAt? {t : Text} {offset : Nat} {c : Char} (h : charAt? t offset = some c) :
    offset < size t := by
  induction t generalizing offset with
  | nil => cases h
  | cons d r ih =>
      rw [size_cons]
      rcases Nat.lt_or_ge offset d.utf8Size with hlt | hge
      · omega
      · obtain ⟨k, rfl⟩ := Nat.exists_eq_add_of_le hge
        rw [charAt?_cons_add] at h
        have := ih h
        omega

end Text

/-! ### Positions in literals -/

/-- A byte position lies in a string or a comment of the text. -/
def InLiteral (t : Text) (offset : Nat) : Prop :=
  ∃ span ∈ literalSpans t, span.contains offset = true

instance (t : Text) (offset : Nat) : Decidable (InLiteral t offset) :=
  inferInstanceAs (Decidable (∃ span ∈ literalSpans t, span.contains offset = true))

/-- No span begins before the row does. -/
theorem le_start_of_mem_spansFrom {ps : List Piece} {start : Nat} {span : Span}
    (h : span ∈ spansFrom start ps) : start ≤ span.start := by
  induction ps generalizing start with
  | nil => cases h
  | cons p ps ih =>
      cases p with
      | plain c =>
          have hle := ih h
          omega
      | string t | comment t =>
          rcases List.mem_cons.mp h with rfl | h
          · exact Nat.le_refl _
          · have hle := ih h
            omega

/-- If the spans behind the first one begin behind it, asking one of them
is asking all of them. -/
theorem insideAny_cons {span : Span} {spans : List Span} {offset : Nat}
    (hlater : ∀ s ∈ spans, span.stop ≤ s.start)
    (hspans : insideAny spans offset = true ↔ ∃ s ∈ spans, s.contains offset = true) :
    insideAny (span :: spans) offset = true
      ↔ ∃ s ∈ span :: spans, s.contains offset = true := by
  by_cases hstop : span.stop ≤ offset
  · have hskip : insideAny (span :: spans) offset = insideAny spans offset := by
      simp [insideAny, hstop]
    have hnot : span.contains offset = false := by
      simp [Span.contains, hstop]
    simp [hskip, hspans, hnot]
  · have hask : insideAny (span :: spans) offset = span.contains offset := by
      simp [insideAny, Span.contains, hstop, Nat.lt_of_not_le hstop]
    have hnone : ¬ ∃ s ∈ spans, s.contains offset = true := by
      rintro ⟨s, hs, hcontains⟩
      have hle := hlater s hs
      simp only [Span.contains, Bool.and_eq_true, decide_eq_true_eq] at hcontains
      omega
    simp only [List.mem_cons, exists_eq_or_imp, hnone, or_false, hask]

/-- The search among the sorted spans finds out whether a position is in
one of them. -/
theorem insideAny_spansFrom (ps : List Piece) (start offset : Nat) :
    insideAny (spansFrom start ps) offset = true
      ↔ ∃ span ∈ spansFrom start ps, span.contains offset = true := by
  induction ps generalizing start with
  | nil => simp [spansFrom, insideAny]
  | cons p ps ih =>
      cases p with
      | plain c => exact ih _
      | string t | comment t =>
          exact insideAny_cons (fun s hs => le_start_of_mem_spansFrom hs) (ih _)

/-- The search among the spans finds out whether a position is in a literal. -/
theorem insideAny_iff_inLiteral (t : Text) (offset : Nat) :
    insideAny (literalSpans t) offset = true ↔ InLiteral t offset :=
  insideAny_spansFrom (pieces t) 0 offset

/-! ### Characters outside literals -/

/-- A character begins at a byte position outside literals. -/
def StandsOutside (t : Text) (c : Char) (offset : Nat) : Prop :=
  t.charAt? offset = some c ∧ ¬ InLiteral t offset

instance (t : Text) (c : Char) (offset : Nat) : Decidable (StandsOutside t c offset) :=
  inferInstanceAs (Decidable (_ ∧ _))

/-- Where a character stands alone in a row of pieces that begins at a
position. -/
def positions (c : Char) : Nat → List Piece → List Nat
  | _, [] => []
  | start, p :: ps =>
    if p = .plain c then start :: positions c (start + Text.size p.text) ps
    else positions c (start + Text.size p.text) ps

section

variable {c : Char} {start offset : Nat} {ps qs : List Piece}

/-- The positions in two rows. -/
theorem positions_append (c : Char) (start : Nat) (ps qs : List Piece) :
    positions c start (ps ++ qs)
      = positions c start ps ++ positions c (start + Text.size (textOf ps)) qs := by
  induction ps generalizing start with
  | nil => rfl
  | cons p ps ih =>
      simp only [List.cons_append, positions, ih, textOf_cons, Text.size_append, Nat.add_assoc]
      split <;> rfl

/-- There are as many positions as characters. -/
theorem length_positions (c : Char) (start : Nat) (ps : List Piece) :
    (positions c start ps).length = ps.count (.plain c) := by
  induction ps generalizing start with
  | nil => rfl
  | cons p ps ih =>
      rw [positions, List.count_cons]
      by_cases hp : p = .plain c <;> simp [hp, ih]

/-- The first piece, and the others. -/
theorem mem_positions_cons {p : Piece} :
    offset ∈ positions c start (p :: ps)
      ↔ (p = .plain c ∧ offset = start) ∨ offset ∈ positions c (start + Text.size p.text) ps := by
  rw [positions]
  by_cases hp : p = .plain c <;> simp [hp]

/-- A position in a row divides it. -/
theorem mem_positions :
    offset ∈ positions c start ps
      ↔ ∃ before after, ps = before ++ .plain c :: after
        ∧ offset = start + Text.size (textOf before) := by
  constructor
  · intro h
    induction ps generalizing start with
    | nil => cases h
    | cons p ps ih =>
        rcases mem_positions_cons.mp h with ⟨rfl, rfl⟩ | h
        · exact ⟨[], ps, rfl, rfl⟩
        · obtain ⟨before, after, rfl, rfl⟩ := ih h
          exact ⟨p :: before, after, rfl, by simp [Nat.add_assoc]⟩
  · rintro ⟨before, after, rfl, rfl⟩
    rw [positions_append]
    exact List.mem_append_right _ (mem_positions_cons.mpr (.inl ⟨rfl, rfl⟩))

/-- A position lies within the row. -/
theorem bounds_of_mem_positions (h : offset ∈ positions c start ps) :
    start ≤ offset ∧ offset < start + Text.size (textOf ps) := by
  obtain ⟨before, after, rfl, rfl⟩ := mem_positions.mp h
  have hpos := c.utf8Size_pos
  simp only [textOf_append, textOf_cons, Piece.text, Text.size_append, Text.size_cons]
  omega

/-- A position is listed once. -/
theorem nodup_positions (c : Char) (start : Nat) (ps : List Piece) :
    (positions c start ps).Nodup := by
  induction ps generalizing start with
  | nil => exact List.nodup_nil
  | cons p ps ih =>
      rw [positions]
      split
      · rename_i hp
        subst hp
        refine List.nodup_cons.mpr ⟨fun hmem => ?_, ih _⟩
        have hbounds := bounds_of_mem_positions hmem
        have hpos := c.utf8Size_pos
        simp only [Piece.text, Text.size_cons] at hbounds
        omega
      · exact ih _

end

/-- No span of a row begins before the row does. -/
theorem not_contains_of_lt {start offset : Nat} (h : offset < start) (ps : List Piece) :
    ¬ ∃ span ∈ spansFrom start ps, span.contains offset = true := by
  rintro ⟨span, hspan, hcontains⟩
  have hle := le_start_of_mem_spansFrom hspan
  simp only [Span.contains, Bool.and_eq_true, decide_eq_true_eq] at hcontains
  omega

/-- The characters alone in a row of pieces are those outside its spans. -/
theorem mem_positions_iff {c : Char} {start offset : Nat} {ps : List Piece} :
    start + offset ∈ positions c start ps
      ↔ (textOf ps).charAt? offset = some c
        ∧ ¬ ∃ span ∈ spansFrom start ps, span.contains (start + offset) = true := by
  induction ps generalizing start offset with
  | nil => simp [positions, Text.charAt?]
  | cons p ps ih =>
      rw [mem_positions_cons, textOf_cons]
      rcases Nat.lt_or_ge offset (Text.size p.text) with hlt | hge
      · -- The position is in the first piece, so none of the others has it.
        have hlater : start + offset ∉ positions c (start + Text.size p.text) ps := by
          intro hmem
          have hbounds := bounds_of_mem_positions hmem
          omega
        simp only [hlater, or_false]
        cases p with
        | plain d =>
            have hnone := not_contains_of_lt (Nat.add_lt_add_left hlt start) ps
            simp only [Piece.text, Text.size_cons, Text.size_nil, Nat.add_zero] at hlt hnone
            simp only [spansFrom, hnone, not_false_eq_true, and_true, Piece.plain.injEq]
            rcases Nat.eq_zero_or_pos offset with rfl | hpos
            · simp [Text.charAt?_zero, Piece.text]
            · simp [Piece.text, Text.charAt?_cons_of_lt hpos hlt, Nat.ne_of_gt hpos]
        | string t | comment t =>
            have hspan : (Span.mk start (start + Text.size t)).contains (start + offset) = true := by
              simpa [Span.contains, Piece.text] using hlt
            simp [spansFrom, hspan]
      · -- The position is behind the first piece, and counted from its end.
        obtain ⟨k, rfl⟩ := Nat.exists_eq_add_of_le hge
        have hhere : ¬ (p = .plain c ∧ start + (Text.size p.text + k) = start) := by
          rintro ⟨rfl, heq⟩
          have hpos := c.utf8Size_pos
          simp only [Piece.text, Text.size_cons] at heq
          omega
        rw [Text.charAt?_append_size, ← Nat.add_assoc]
        rw [← Nat.add_assoc] at hhere
        simp only [hhere, false_or, ih]
        cases p with
        | plain d => simp [spansFrom, Piece.text]
        | string t | comment t =>
            have hspan : (Span.mk start (start + Text.size t)).contains (start + Text.size t + k)
                = false := by
              simp [Span.contains]
            simp [spansFrom, Piece.text, hspan]

/-- The characters alone among the pieces of a text are those that stand
outside literals. -/
theorem mem_positions_pieces {t : Text} {c : Char} {offset : Nat} :
    offset ∈ positions c 0 (pieces t) ↔ StandsOutside t c offset := by
  have h : 0 + offset ∈ positions c 0 (pieces t)
      ↔ (textOf (pieces t)).charAt? offset = some c
        ∧ ¬ ∃ span ∈ spansFrom 0 (pieces t), span.contains (0 + offset) = true :=
    mem_positions_iff
  rwa [Nat.zero_add, text_pieces] at h

/-- A place outside literals divides the pieces of the text too. -/
theorem exists_pieces_of_outside {front r : Text} {c : Char}
    (h : ¬ InLiteral (front ++ c :: r) (Text.size front)) :
    ∃ before after, pieces (front ++ c :: r) = before ++ .plain c :: after
      ∧ textOf before = front ∧ textOf after = r := by
  have hchar : (front ++ c :: r).charAt? (Text.size front) = some c := by
    rw [← Nat.add_zero (Text.size front), Text.charAt?_append_size]
    rfl
  obtain ⟨before, after, hpieces, hsize⟩ := mem_positions.mp (mem_positions_pieces.mpr ⟨hchar, h⟩)
  rw [Nat.zero_add] at hsize
  have htext := text_pieces (front ++ c :: r)
  rw [hpieces, textOf_append, textOf_cons] at htext
  obtain ⟨hfront, hback⟩ := Text.append_inj_of_size htext hsize.symm
  exact ⟨before, after, hpieces, hfront, (List.cons.inj hback).2⟩

/-- Some of the pieces of a text have a character alone as often as it
stands outside literals between their two ends. -/
theorem card_standsOutside {t : Text} {before ps after : List Piece}
    (h : pieces t = before ++ (ps ++ after)) (c : Char) :
    ((Finset.Ico (Text.size (textOf before)) (Text.size (textOf before) + Text.size (textOf ps))).filter
      (StandsOutside t c)).card = ps.count (.plain c) := by
  have hset : (Finset.Ico (Text.size (textOf before))
      (Text.size (textOf before) + Text.size (textOf ps))).filter (StandsOutside t c)
      = (positions c (Text.size (textOf before)) ps).toFinset := by
    ext offset
    rw [Finset.mem_filter, Finset.mem_Ico, List.mem_toFinset, ← mem_positions_pieces, h,
      positions_append, positions_append, Nat.zero_add, List.mem_append, List.mem_append]
    constructor
    · rintro ⟨⟨hle, hlt⟩, hbefore | hps | hafter⟩
      · have hbounds := bounds_of_mem_positions hbefore
        omega
      · exact hps
      · have hbounds := bounds_of_mem_positions hafter
        omega
    · intro hps
      exact ⟨bounds_of_mem_positions hps, .inr (.inl hps)⟩
  rw [hset, List.toFinset_card_of_nodup (nodup_positions ..), length_positions]

end Stylesheet
