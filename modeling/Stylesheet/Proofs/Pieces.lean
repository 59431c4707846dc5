import Stylesheet.Literal

/-!
# Pieces of texts put together

Reading a text as pieces is not local: a quote that is never closed takes
all that follows into its literal. When no literal is open at the end of a
text, what follows makes no difference, except that a slash at its end and
a star behind it are a comment together. `pieces_append_of_last`: apart from
that, the pieces of two texts, one after the other, are the pieces of the
first and then those of the second. So it is when all literals of the first
text are closed (`pieces_append`).
-/

set_option autoImplicit false

namespace Stylesheet

namespace Literal

/-- Whether what stands behind an opening quote ends with the quote that
closes it. -/
def endsString (q : Char) : Text → Bool
  | [] => false
  | [c] => c == q
  | c :: d :: r => if c == '\\' then endsString q r else endsString q (d :: r)

/-- Whether what stands behind the opening mark of a comment ends with
the closing one. -/
def endsComment (inside : Text) : Bool := ['*', '/'].isSuffixOf inside

end Literal

/-- Whether a literal has its closing quote or mark. -/
def Piece.closed : Piece → Bool
  | .plain _ => true
  | .string [] => false
  | .string (q :: inside) => Literal.endsString q inside
  | .comment t => Literal.endsComment (t.drop 2)

namespace Literal

/-- A quote is no other character. -/
theorem ne_of_isQuote {q c : Char} (hq : isQuote q = true) (hc : isQuote c = false) : q ≠ c := by
  rintro rfl
  rw [hq] at hc
  cases hc

/-- Nothing behind a closed string gets into it. -/
theorem takeString_append_of_ends {q : Char} (hq : isQuote q = true) {t : Text}
    (h : endsString q (takeString q t).1 = true) (s : Text) :
    takeString q (t ++ s) = ((takeString q t).1, (takeString q t).2 ++ s) := by
  fun_induction takeString q t with
  | case1 => simp [endsString] at h
  | case2 c hc => simp [endsString] at h
  | case3 c hc =>
      obtain rfl : c = q := by simpa [endsString] using h
      have hb : c ≠ '\\' := ne_of_isQuote hq (by decide)
      cases s with
      | nil => simp [takeString, hc]
      | cons d s => simp [takeString, hc, hb]
  | case4 c d r hb inside rest heq ih =>
      rw [heq] at ih
      -- The first character does not end the string, so the rest of it is closed.
      have hinside : endsString q inside = true := by simpa [endsString, hb] using h
      simp [takeString, hb, ih hinside]
  | case5 c d r hb hn => simp [endsString] at h
  | case6 c d r hb hn hcq => simp [takeString, hb, hn, hcq]
  | case7 c d r hb hn hcq inside rest heq ih =>
      rw [heq] at ih
      have hinside : endsString q inside = true := by
        cases inside with
        | nil => simp [endsString, hcq] at h
        | cons e inside => simpa [endsString, hb] using h
      have htail := ih hinside
      rw [List.cons_append] at htail
      simp [takeString, hb, hn, hcq, htail]

/-- A comment takes the first character in any case. -/
theorem head?_takeComment (c : Char) (r : Text) : (takeComment (c :: r)).1.head? = some c := by
  cases r with
  | nil => rfl
  | cons d r =>
      rw [takeComment]
      split <;> rfl

/-- A character in front matters to the end of a comment only if it makes
up the closing mark with the next one. -/
theorem endsComment_cons {c d : Char} {inside : Text} (hcd : ¬ (c == '*' && d == '/') = true)
    (hhead : inside.head? = some d) : endsComment (c :: inside) = endsComment inside := by
  rw [Bool.eq_iff_iff, endsComment, endsComment, List.isSuffixOf_iff_suffix,
    List.isSuffixOf_iff_suffix, List.suffix_cons_iff]
  constructor
  · rintro (heads | htail)
    · obtain ⟨rfl, rfl⟩ := List.cons.inj heads
      obtain rfl : '/' = d := Option.some.inj hhead
      exact absurd rfl hcd
    · exact htail
  · exact .inr

/-- Nothing behind a closed comment gets into it. -/
theorem takeComment_append_of_ends {t : Text} (h : endsComment (takeComment t).1 = true)
    (s : Text) : takeComment (t ++ s) = ((takeComment t).1, (takeComment t).2 ++ s) := by
  fun_induction takeComment t with
  | case1 => simp [endsComment] at h
  | case2 c =>
      have hlength := (List.isSuffixOf_iff_suffix.mp h).length_le
      simp at hlength
  | case3 c d r hcd => simp [takeComment, hcd]
  | case4 c d r hcd inside rest heq ih =>
      have hhead := head?_takeComment d r
      rw [heq] at ih hhead
      have hinside : endsComment inside = true := by
        rwa [endsComment_cons hcd hhead] at h
      have htail := ih hinside
      rw [List.cons_append] at htail
      simp [takeComment, hcd, htail]

/-- A literal at the front is a string or a comment. -/
theorem take?_cases {t rest : Text} {p : Piece} (h : take? t = some (p, rest)) :
    (∃ q r, isQuote q = true ∧ t = q :: r ∧ p = .string (q :: (takeString q r).1)
      ∧ rest = (takeString q r).2)
    ∨ ∃ r, t = '/' :: '*' :: r ∧ p = .comment ('/' :: '*' :: (takeComment r).1)
      ∧ rest = (takeComment r).2 := by
  unfold take? at h
  split at h
  · cases h
  · rename_i c r
    split at h
    · rename_i hq
      simp only [Option.some.injEq, Prod.mk.injEq] at h
      exact .inl ⟨c, r, hq, rfl, h.1.symm, h.2.symm⟩
    · split at h
      · rename_i r' _
        simp only [Option.some.injEq, Prod.mk.injEq] at h
        exact .inr ⟨r', rfl, h.1.symm, h.2.symm⟩
      · cases h

/-- A quote begins a string. -/
theorem take?_quote {q : Char} (hq : isQuote q = true) (r : Text) :
    take? (q :: r) = some (.string (q :: (takeString q r).1), (takeString q r).2) := by
  simp [take?, hq]

/-- A slash and a star begin a comment. -/
theorem take?_comment (r : Text) :
    take? ('/' :: '*' :: r)
      = some (.comment ('/' :: '*' :: (takeComment r).1), (takeComment r).2) := by
  simp [take?, isQuote, apostrophe]

/-- Nothing else begins a literal. -/
theorem take?_eq_none {c : Char} {r : Text} :
    take? (c :: r) = none ↔ isQuote c = false ∧ (c = '/' → r.head? ≠ some '*') := by
  constructor
  · intro h
    refine ⟨?_, ?_⟩
    · cases hq : isQuote c with
      | false => rfl
      | true =>
          rw [take?_quote hq] at h
          cases h
    · rintro rfl hstar
      obtain ⟨r', rfl⟩ := List.head?_eq_some_iff.mp hstar
      rw [take?_comment] at h
      cases h
  · rintro ⟨hq, hstar⟩
    cases h : take? (c :: r) with
    | none => rfl
    | some found =>
        rcases take?_cases h with ⟨q, r', hq', heq, -⟩ | ⟨r', heq, -⟩
        · obtain ⟨rfl, rfl⟩ := List.cons.inj heq
          rw [hq] at hq'
          cases hq'
        · obtain ⟨rfl, rfl⟩ := List.cons.inj heq
          exact absurd rfl (hstar rfl)

/-- Nothing behind a literal that ends before the text does gets into it. -/
theorem takeString_append_of_rest (q : Char) {t : Text} (h : (takeString q t).2 ≠ []) (s : Text) :
    takeString q (t ++ s) = ((takeString q t).1, (takeString q t).2 ++ s) := by
  fun_induction takeString q t with
  | case1 => exact absurd rfl h
  | case2 c hc =>
      obtain rfl : c = '\n' := by simpa using hc
      cases s with
      | nil => rfl
      | cons d s => simp [takeString]
  | case3 c hc => exact absurd rfl h
  | case4 c d r hb inside rest heq ih =>
      rw [heq] at ih
      simp [takeString, hb, ih h]
  | case5 c d r hb hn => simp [takeString, hb, hn]
  | case6 c d r hb hn hcq => simp [takeString, hb, hn, hcq]
  | case7 c d r hb hn hcq inside rest heq ih =>
      rw [heq] at ih
      have htail := ih h
      rw [List.cons_append] at htail
      simp [takeString, hb, hn, hcq, htail]

/-- Nothing gets into a comment that ends before the text does. -/
theorem takeComment_append_of_rest {t : Text} (h : (takeComment t).2 ≠ []) (s : Text) :
    takeComment (t ++ s) = ((takeComment t).1, (takeComment t).2 ++ s) := by
  fun_induction takeComment t with
  | case1 => exact absurd rfl h
  | case2 c => exact absurd rfl h
  | case3 c d r hcd => simp [takeComment, hcd]
  | case4 c d r hcd inside rest heq ih =>
      rw [heq] at ih
      have htail := ih h
      rw [List.cons_append] at htail
      simp [takeComment, hcd, htail]

/-- Nothing behind a literal gets into it if it is closed, or if it ends
before the text does. -/
theorem take?_append {t rest : Text} {p : Piece} (h : take? t = some (p, rest))
    (hp : rest = [] → p.closed = true) (s : Text) : take? (t ++ s) = some (p, rest ++ s) := by
  by_cases hrest : rest = []
  · have hclosed := hp hrest
    rcases take?_cases h with ⟨q, r, hq, rfl, rfl, rfl⟩ | ⟨r, rfl, rfl, rfl⟩
    · rw [List.cons_append, take?_quote hq, takeString_append_of_ends hq hclosed]
    · rw [List.cons_append, List.cons_append, take?_comment, takeComment_append_of_ends hclosed]
  · rcases take?_cases h with ⟨q, r, hq, rfl, rfl, rfl⟩ | ⟨r, rfl, rfl, rfl⟩
    · rw [List.cons_append, take?_quote hq, takeString_append_of_rest q hrest]
    · rw [List.cons_append, List.cons_append, take?_comment, takeComment_append_of_rest hrest]

end Literal

/-- A literal at the front is a piece. -/
theorem pieces_of_take? {t rest : Text} {p : Piece} (h : Literal.take? t = some (p, rest)) :
    pieces t = p :: pieces rest := by
  cases t with
  | nil => cases h
  | cons c r =>
      rw [pieces]
      split
      · rename_i p' rest' h'
        rw [h, Option.some.injEq, Prod.mk.injEq] at h'
        rw [h'.1, h'.2]
      · rename_i h'
        rw [h] at h'
        cases h'

/-- Any other character is one by itself. -/
theorem pieces_of_plain {c : Char} {r : Text} (h : Literal.take? (c :: r) = none) :
    pieces (c :: r) = .plain c :: pieces r := by
  rw [pieces]
  split
  · rename_i h'
    rw [h] at h'
    cases h'
  · rfl

/-- The pieces of two texts, one after the other, if nothing is open at the
end of the first. -/
theorem pieces_append_of_last {t : Text} (hlast : ∀ p ∈ (pieces t).getLast?, p.closed = true)
    {s : Text} (hs : (pieces t).getLast? = some (.plain '/') → s.head? ≠ some '*') :
    pieces (t ++ s) = pieces t ++ pieces s := by
  -- What is last behind a piece is last in the whole row.
  have hbehind : ∀ {p q : Piece} {ps : List Piece}, ps.getLast? = some q →
      (p :: ps).getLast? = some q := by
    intro p q ps h
    rwa [List.getLast?_cons_of_ne_nil (List.ne_nil_of_mem (List.mem_of_getLast? h))]
  fun_induction pieces t with
  | case1 => rfl
  | case2 c r p rest h ih =>
      have hp : rest = [] → p.closed = true := by
        rintro rfl
        exact hlast p (by simp [pieces])
      rw [pieces_of_take? (Literal.take?_append h hp s), ih (fun q hq => hlast q (hbehind hq))
        fun hslash => hs (hbehind hslash)]
      rfl
  | case3 c r h ih =>
      rw [Literal.take?_eq_none] at h
      -- Only a slash that is the last character could begin a comment with `s`.
      have hplain : Literal.take? (c :: (r ++ s)) = none := by
        refine Literal.take?_eq_none.mpr ⟨h.1, fun hc => ?_⟩
        cases r with
        | nil => exact hs (by simp [pieces, hc])
        | cons d r => exact h.2 hc
      rw [List.cons_append, pieces_of_plain hplain, ih (fun q hq => hlast q (hbehind hq))
        fun hslash => hs (hbehind hslash)]
      rfl

/-- The pieces of two texts, one after the other. -/
theorem pieces_append {t : Text} (hclosed : ∀ p ∈ pieces t, p.closed = true) {s : Text}
    (hs : (pieces t).getLast? = some (.plain '/') → s.head? ≠ some '*') :
    pieces (t ++ s) = pieces t ++ pieces s :=
  pieces_append_of_last (fun p hp => hclosed p (List.mem_of_getLast? hp)) hs

/-- Text that cannot complete a comment may follow any text of closed
literals. -/
theorem pieces_append_of_head {t : Text} (hclosed : ∀ p ∈ pieces t, p.closed = true) {s : Text}
    (hs : s.head? ≠ some '*') : pieces (t ++ s) = pieces t ++ pieces s :=
  pieces_append hclosed fun _ => hs

/-- A character that begins no literal is a piece of its own. -/
theorem pieces_cons {c : Char} (hq : isQuote c = false) (hc : c ≠ '/') (s : Text) :
    pieces (c :: s) = .plain c :: pieces s :=
  pieces_of_plain (Literal.take?_eq_none.mpr ⟨hq, fun h => absurd h hc⟩)

/-- Nor does it join a literal in front of it. -/
theorem pieces_append_cons {t : Text} (hclosed : ∀ p ∈ pieces t, p.closed = true) {c : Char}
    (hq : isQuote c = false) (hslash : c ≠ '/') (hstar : c ≠ '*') (s : Text) :
    pieces (t ++ c :: s) = pieces t ++ .plain c :: pieces s := by
  rw [pieces_append_of_head hclosed (by simpa using hstar), pieces_cons hq hslash]

end Stylesheet
