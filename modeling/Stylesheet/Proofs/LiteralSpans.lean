import Stylesheet.Proofs.Derivation
import Stylesheet.Proofs.Offsets

/-!
# The spans of literals

Every scanner asks `literalSpans` where the strings and comments of a text
are, and `insideAny` whether a position is in one of them. The first counts
bytes along pieces, the second looks at one span only, and both are right
because the spans are in order and none reaches into another.

`literalSpans_exact` says what the spans of any text are. Each is a stretch
of the text that is not empty, begins with a quote or with `/*`, and has both
ends between two characters of the UTF-8 encoding, for which the positions of
`String` are asked (`Span.IsIn`). Each ends before the next one begins. Nothing
that could open a literal is left out: all quotes are in spans, and all `/*`
begin in one. A `/*` is in its span as a whole, unless its slash is the last
one of a comment, where it opens nothing (`literalSpans_straddled`).

Here literals are taken apart by characters. A scanner that goes over the
bytes instead finds the same spans (`Stylesheet.Proofs.ByteScan`).
-/

set_option autoImplicit false

namespace Stylesheet

/-! ### Positions of the encoding -/

/-- The size of a text is that of the string it makes up. -/
theorem utf8ByteSize_ofList (t : Text) : (String.ofList t).utf8ByteSize = Text.size t := by
  induction t with
  | nil => rfl
  | cons c t ih =>
      rw [String.ofList_cons, String.utf8ByteSize_append, String.utf8ByteSize_singleton, ih,
        Text.size_cons]

/-- Where a text is divided, the encoding is divided between two characters. -/
theorem isValid_size (front back : Text) :
    String.Pos.Raw.IsValid (String.ofList (front ++ back)) ⟨Text.size front⟩ := by
  refine String.Pos.Raw.isValid_iff_exists_append.mpr
    ⟨String.ofList front, String.ofList back, String.ofList_append, ?_⟩
  refine String.Pos.Raw.ext ?_
  rw [String.byteIdx_rawEndPos, utf8ByteSize_ofList]

/-! ### What opens a literal -/

/-- A quote stands at a byte position. -/
def HasQuoteAt (t : Text) (offset : Nat) : Prop := ∃ q, isQuote q = true ∧ t.charAt? offset = some q

/-- The mark that opens comments stands at a byte position. -/
def HasMarkAt (t : Text) (offset : Nat) : Prop :=
  t.charAt? offset = some '/' ∧ t.charAt? (offset + 1) = some '*'

instance (t : Text) (offset : Nat) : Decidable (HasMarkAt t offset) :=
  inferInstanceAs (Decidable (_ ∧ _))

/-- A span is a stretch of a text that begins as a literal does. -/
structure Span.IsIn (s : Span) (t : Text) : Prop where
  nonempty : s.start < s.stop
  within : s.stop ≤ (String.ofList t).utf8ByteSize
  start_valid : String.Pos.Raw.IsValid (String.ofList t) ⟨s.start⟩
  stop_valid : String.Pos.Raw.IsValid (String.ofList t) ⟨s.stop⟩
  opens : HasQuoteAt t s.start ∨ HasMarkAt t s.start

/-- A string and a comment have the same spans. -/
theorem spansFrom_of_take? {t rest : Text} {p : Piece} (h : Literal.take? t = some (p, rest))
    (start : Nat) (ps : List Piece) :
    spansFrom start (p :: ps)
      = ⟨start, start + Text.size p.text⟩ :: spansFrom (start + Text.size p.text) ps := by
  rcases Literal.take?_cases h with ⟨q, r, hq, -, rfl, -⟩ | ⟨r, -, rfl, -⟩
  · rfl
  · rfl

/-- A span belongs to the literal that is taken where it begins. -/
theorem exists_of_mem_spansFrom {t : Text} {start : Nat} {span : Span}
    (h : span ∈ spansFrom start (pieces t)) :
    ∃ front p rest, t = front ++ (p.text ++ rest)
      ∧ Literal.take? (p.text ++ rest) = some (p, rest)
      ∧ span = ⟨start + Text.size front, start + Text.size front + Text.size p.text⟩ := by
  fun_induction pieces t generalizing start with
  | case1 => cases h
  | case2 c r p rest htake ih =>
      have htext := Literal.text_append_of_take? htake
      rw [spansFrom_of_take? htake] at h
      rcases List.mem_cons.mp h with rfl | h
      · exact ⟨[], p, rest, htext.symm, by rw [htext, htake], rfl⟩
      · obtain ⟨front, p', rest', heq, htake', rfl⟩ := ih h
        refine ⟨p.text ++ front, p', rest', ?_, htake', ?_⟩
        · rw [← htext, heq, List.append_assoc]
        · rw [Text.size_append, Nat.add_assoc start]
  | case3 c r htake ih =>
      obtain ⟨front, p', rest', heq, htake', rfl⟩ := ih h
      refine ⟨c :: front, p', rest', by rw [heq, List.cons_append], htake', ?_⟩
      rw [Text.size_cons, Nat.add_assoc start]

/-- Each span is that of a literal where it is taken. -/
theorem exists_of_mem_literalSpans {t : Text} {span : Span} (h : span ∈ literalSpans t) :
    ∃ front p rest, t = front ++ (p.text ++ rest)
      ∧ Literal.take? (p.text ++ rest) = some (p, rest)
      ∧ span = ⟨Text.size front, Text.size front + Text.size p.text⟩ := by
  obtain ⟨front, p, rest, heq, htake, hspan⟩ := exists_of_mem_spansFrom h
  rw [Nat.zero_add] at hspan
  exact ⟨front, p, rest, heq, htake, hspan⟩

/-- The first character of a literal, and the second one of a comment. -/
theorem opens_of_take? {front rest : Text} {p : Piece}
    (h : Literal.take? (p.text ++ rest) = some (p, rest)) :
    HasQuoteAt (front ++ (p.text ++ rest)) (Text.size front)
      ∨ HasMarkAt (front ++ (p.text ++ rest)) (Text.size front) := by
  have hchar : ∀ k, (front ++ (p.text ++ rest)).charAt? (Text.size front + k)
      = (p.text ++ rest).charAt? k := Text.charAt?_append_size front _
  rcases Literal.take?_cases h with ⟨q, r, hq, heq, -⟩ | ⟨r, heq, -⟩
  · refine .inl ⟨q, hq, ?_⟩
    rw [← Nat.add_zero (Text.size front), hchar, heq]
    rfl
  · refine .inr ⟨?_, ?_⟩
    · rw [← Nat.add_zero (Text.size front), hchar, heq]
      rfl
    · rw [hchar, heq]
      rfl

/-- So its ends are places of the text. -/
theorem isIn_of_mem_literalSpans {t : Text} {span : Span} (h : span ∈ literalSpans t) :
    span.IsIn t := by
  obtain ⟨front, p, rest, rfl, htake, rfl⟩ := exists_of_mem_literalSpans h
  have hpos := Text.size_pos (Literal.text_ne_nil_of_take? htake)
  refine ⟨?_, ?_, isValid_size front _, ?_, opens_of_take? htake⟩
  · show Text.size front < Text.size front + Text.size p.text
    omega
  · rw [utf8ByteSize_ofList, Text.size_append, Text.size_append]
    show Text.size front + Text.size p.text ≤ _
    omega
  · have hvalid := isValid_size (front ++ p.text) rest
    rwa [List.append_assoc, Text.size_append] at hvalid

/-! ### Order -/

/-- Each span ends before the next one begins. -/
theorem pairwise_spansFrom (start : Nat) (ps : List Piece) :
    (spansFrom start ps).Pairwise fun a b => a.stop ≤ b.start := by
  induction ps generalizing start with
  | nil => exact .nil
  | cons p ps ih =>
      cases p with
      | plain c => exact ih _
      | string t | comment t =>
          exact List.pairwise_cons.mpr ⟨fun b hb => le_start_of_mem_spansFrom hb, ih _⟩

/-! ### Nothing is left out -/

/-- Outside the literals none begins. -/
theorem take?_eq_none_of_outside {front r : Text} {c : Char}
    (h : ¬ InLiteral (front ++ c :: r) (Text.size front)) : Literal.take? (c :: r) = none := by
  obtain ⟨before, after, hpieces, -, rfl⟩ := exists_pieces_of_outside h
  have hrow := isRow_pieces (front ++ c :: textOf after)
  rw [hpieces] at hrow
  exact hrow.behind.take?_eq_none

/-- Where a character begins, the text can be divided. -/
theorem Text.exists_of_charAt? {t : Text} {offset : Nat} {c : Char}
    (h : t.charAt? offset = some c) : ∃ front r, t = front ++ c :: r ∧ offset = Text.size front := by
  induction t generalizing offset with
  | nil => cases h
  | cons d r ih =>
      rcases Nat.lt_or_ge offset d.utf8Size with hlt | hge
      · rcases Nat.eq_zero_or_pos offset with rfl | hpos
        · cases h
          exact ⟨[], r, rfl, rfl⟩
        · rw [Text.charAt?_cons_of_lt hpos hlt] at h
          cases h
      · obtain ⟨k, rfl⟩ := Nat.exists_eq_add_of_le hge
        rw [Text.charAt?_cons_add] at h
        obtain ⟨front, r', rfl, rfl⟩ := ih h
        exact ⟨d :: front, r', rfl, rfl⟩

/-- Behind a slash, one byte further. -/
theorem Text.charAt?_behind_slash (front r : Text) :
    (front ++ '/' :: r).charAt? (Text.size front + 1) = r.head? := by
  rw [Text.charAt?_append_size]
  show Text.charAt? ('/' :: r) ('/'.utf8Size + 0) = r.head?
  rw [Text.charAt?_cons_add, Text.charAt?_zero]

/-- All that can open a literal is in one. -/
theorem inLiteral_of_opens {t : Text} {offset : Nat}
    (h : HasQuoteAt t offset ∨ HasMarkAt t offset) : InLiteral t offset := by
  refine Decidable.byContradiction fun hout => ?_
  rcases h with ⟨q, hq, hchar⟩ | ⟨hslash, hstar⟩
  · obtain ⟨front, r, rfl, rfl⟩ := Text.exists_of_charAt? hchar
    obtain ⟨hnot, -⟩ := Literal.take?_eq_none.mp (take?_eq_none_of_outside hout)
    rw [hq] at hnot
    cases hnot
  · obtain ⟨front, r, rfl, rfl⟩ := Text.exists_of_charAt? hslash
    rw [Text.charAt?_behind_slash] at hstar
    exact (Literal.take?_eq_none.mp (take?_eq_none_of_outside hout)).2 rfl hstar

/-- A quote has one byte. -/
theorem utf8Size_of_isQuote {q : Char} (hq : isQuote q = true) : q.utf8Size = 1 := by
  simp only [isQuote, apostrophe, Bool.or_eq_true, beq_iff_eq] at hq
  rcases hq with rfl | rfl
  · rfl
  · rfl

/-- The star of a mark is in the span of its slash, unless the slash closes a
comment. -/
theorem contains_star {t : Text} {span : Span} {offset : Nat} (hspan : span ∈ literalSpans t)
    (hmark : HasMarkAt t offset) (hin : span.contains offset = true) :
    span.contains (offset + 1) = true
      ∨ (span.stop = offset + 1
        ∧ ∃ inside, t.slice span.start span.stop = '/' :: '*' :: (inside ++ ['*', '/'])) := by
  obtain ⟨front, p, rest, rfl, htake, rfl⟩ := exists_of_mem_literalSpans hspan
  simp only [Span.contains, Bool.and_eq_true, decide_eq_true_eq] at hin ⊢
  rcases Nat.lt_or_ge (offset + 1) (Text.size front + Text.size p.text) with hlt | hge
  · exact .inl ⟨by omega, hlt⟩
  · have hstop : Text.size front + Text.size p.text = offset + 1 := by omega
    refine .inr ⟨hstop, ?_⟩
    rw [Text.slice_size]
    -- The literal ends before the star, so it is closed.
    have hstar : rest.head? = some '*' := by
      have hchar := Text.charAt?_append_size (front ++ p.text) rest 0
      rw [Nat.add_zero, Text.size_append, hstop, List.append_assoc, Text.charAt?_zero] at hchar
      rw [← hchar]
      exact hmark.2
    have hclosed : p.closed = true := by
      refine Literal.closed_of_rest htake ?_ ?_
      · rintro rfl
        cases hstar
      · rw [hstar]
        decide
    rcases Literal.take?_closed htake hclosed with ⟨s, rfl, q, body, hq, rfl, -⟩
      | ⟨s, rfl, body, rfl, hbody⟩
    · -- A string ends with its quote and not with the slash.
      have hlast : (front ++ (q :: (body ++ [q]) ++ rest)).charAt? offset = some q := by
        have hsplit : front ++ (q :: (body ++ [q]) ++ rest) = (front ++ q :: body) ++ q :: rest := by
          simp
        have hoffset : offset = Text.size (front ++ q :: body) := by
          have hsize := utf8Size_of_isQuote hq
          simp only [Piece.text, Text.size_append, Text.size_cons, Text.size_nil] at hstop ⊢
          omega
        have hchar := Text.charAt?_append_size (front ++ q :: body) (q :: rest) 0
        rw [hsplit, hoffset]
        exact hchar
      obtain rfl : q = '/' := Option.some.inj (hlast.symm.trans hmark.1)
      cases hq
    · obtain ⟨inside, rfl⟩ := Literal.exists_of_insideComment hbody (by rintro rfl; cases hbody)
      exact ⟨inside, by simp [Piece.text]⟩

/-- The spans of the literals of a text: what each of them is, how they follow
each other, what is in them, and how it is found out whether a position is. -/
theorem literalSpans_exact (t : Text) :
    (∀ s ∈ literalSpans t, s.IsIn t)
      ∧ ((literalSpans t).Pairwise fun a b => a.start < b.start ∧ a.stop ≤ b.start)
      ∧ (∀ offset, HasQuoteAt t offset → ∃ s ∈ literalSpans t, s.contains offset = true)
      ∧ (∀ offset, HasMarkAt t offset → ∃ s ∈ literalSpans t, s.contains offset = true
        ∧ (s.contains (offset + 1) = true ∨ (s.stop = offset + 1
          ∧ ∃ inside, t.slice s.start s.stop = '/' :: '*' :: (inside ++ ['*', '/']))))
      ∧ ∀ offset, insideAny (literalSpans t) offset = true
        ↔ ∃ s ∈ literalSpans t, s.start ≤ offset ∧ offset < s.stop := by
  refine ⟨fun s hs => isIn_of_mem_literalSpans hs, ?_, fun offset hquote => ?_,
    fun offset hmark => ?_, fun offset => ?_⟩
  · refine (pairwise_spansFrom 0 (pieces t)).imp_of_mem fun {a b} ha _ hle => ⟨?_, hle⟩
    exact Nat.lt_of_lt_of_le (isIn_of_mem_literalSpans ha).nonempty hle
  · exact inLiteral_of_opens (.inl hquote)
  · obtain ⟨s, hs, hin⟩ := inLiteral_of_opens (.inr hmark)
    exact ⟨s, hs, hin, contains_star hs hmark hin⟩
  · rw [insideAny_iff_inLiteral]
    simp [InLiteral, Span.contains]

/-- A text with a backslash before a wide character, and one before its end. -/
def escapedText : Text := "'\\é'/**/*\"\\".toList

/-- An escaped quote does not end a string. -/
theorem literalSpans_escapes :
    literalSpans escapedText = [⟨0, 5⟩, ⟨5, 9⟩, ⟨10, 12⟩]
      ∧ (Span.mk 0 5).IsIn escapedText ∧ (Span.mk 10 12).IsIn escapedText
      ∧ HasMarkAt escapedText 8 ∧ ∃ s ∈ literalSpans escapedText, s.contains 8 = true := by
  have hspans : literalSpans escapedText = [⟨0, 5⟩, ⟨5, 9⟩, ⟨10, 12⟩] := by decide +kernel
  have hmark : HasMarkAt escapedText 8 := by decide +kernel
  obtain ⟨hin, -, -, hmarks, -⟩ := literalSpans_exact escapedText
  obtain ⟨s, hs, hcontains, -⟩ := hmarks 8 hmark
  rw [hspans] at hin
  exact ⟨hspans, hin _ (by simp), hin _ (by simp), hmark, s, hs, hcontains⟩

/-- A comment is closed and a star follows: the mark at its end is not in its
span. -/
theorem literalSpans_straddled :
    HasMarkAt "/**/*".toList 3
      ∧ ¬ ∃ s ∈ literalSpans "/**/*".toList, s.start ≤ 3 ∧ 3 + 2 ≤ s.stop := by
  decide +kernel

end Stylesheet
