import Stylesheet.Proofs.HiddenIncludes
import Stylesheet.Proofs.LiteralSpans
import Stylesheet.Proofs.Separators
import Stylesheet.Proofs.Spellings

/-!
# Comments with spaces in them

What stands in a comment should not matter to the directives around it. Of the
directives that begin outside literals this is true: `Include.outsideCut_eq` says
that a text with a comment is taken apart at those of the text before the comment and
at those of the text behind it. A directive before the comment does not read into it,
because a name that is open where a comment begins would be an open string, and then
there is no comment (`endsNames_of_row`).

With spaces for its inside, a comment is still a comment and the literals around it are
the same (`pieces_spacedComment`). So which directives are resolved may change only
where `Include.Hides` does, and `resolveIncludes_outside_iff` says so.
-/

set_option autoImplicit false

namespace Stylesheet

open Text

/-! ### Rows that differ in their end -/

namespace Literal

/-- A literal is taken as before if the character behind it is the same. -/
theorem take?_of_head {p : Piece} {d : Char} {r r' : Text}
    (h : take? (p.text ++ d :: r) = some (p, d :: r)) :
    take? (p.text ++ d :: r') = some (p, d :: r') := by
  have hshort : take? (p.text ++ [d]) = some (p, [d]) := take?_of_isPrefix h ⟨r, rfl⟩
  have happend := take?_append hshort (fun hnil => absurd hnil (by simp)) r'
  rwa [List.append_assoc] at happend

end Literal

namespace IsRow

/-- A row may end in another way, if the first character of its end stays. -/
theorem swap {before tail tail' : List Piece} {d : Char} {r r' : Text} (h : IsRow (before ++ tail))
    (htail : textOf tail = d :: r) (htail' : textOf tail' = d :: r') (hends : IsRow tail') :
    IsRow (before ++ tail') := by
  induction before with
  | nil => exact hends
  | cons p before ih =>
      have hrow : IsRow (p :: (before ++ tail)) := h
      have hbehind : pieces (textOf (before ++ tail')) = before ++ tail' := ih hrow.tail
      -- What follows the first piece begins as it did.
      obtain ⟨e, s, s', hs, hs'⟩ : ∃ e s s', textOf (before ++ tail) = e :: s
          ∧ textOf (before ++ tail') = e :: s' := by
        rw [textOf_append, textOf_append, htail, htail']
        cases textOf before with
        | nil => exact ⟨d, r, r', rfl, rfl⟩
        | cons e u => exact ⟨e, _, _, rfl, rfl⟩
      show pieces (p.text ++ textOf (before ++ tail')) = p :: (before ++ tail')
      by_cases hplain : ∃ c, p = .plain c
      · obtain ⟨c, rfl⟩ := hplain
        have hnone : Literal.take? (c :: textOf (before ++ tail')) = none := by
          have hnone := take?_eq_none hrow
          rw [hs, Literal.take?_eq_none] at hnone
          rw [hs', Literal.take?_eq_none]
          exact hnone
        rw [Piece.text, List.singleton_append, pieces_of_plain hnone, hbehind]
      · have hliteral : ∀ c, p ≠ .plain c := fun c hc => hplain ⟨c, hc⟩
        have htake := take?_eq_some hrow hliteral
        rw [hs] at htake
        have htake' : Literal.take? (p.text ++ e :: s') = some (p, e :: s') := Literal.take?_of_head htake
        rw [← hs'] at htake'
        rw [pieces_of_take? htake', hbehind]

end IsRow

/-! ### Positions along a row -/

/-- The spans of two rows. -/
theorem spansFrom_append (start : Nat) (ps qs : List Piece) :
    spansFrom start (ps ++ qs)
      = spansFrom start ps ++ spansFrom (start + size (textOf ps)) qs := by
  induction ps generalizing start with
  | nil => rfl
  | cons p ps ih =>
      cases p with
      | plain c => simp [spansFrom, ih, Piece.text, Nat.add_assoc]
      | string s | comment s => simp [spansFrom, ih, Piece.text, Nat.add_assoc]

/-- No span ends behind its row. -/
theorem stop_le_of_mem_spansFrom {start : Nat} {ps : List Piece} {span : Span}
    (h : span ∈ spansFrom start ps) : span.stop ≤ start + size (textOf ps) := by
  induction ps generalizing start with
  | nil => cases h
  | cons p ps ih =>
      rw [textOf_cons, size_append]
      cases p with
      | plain c =>
          have hle := ih h
          simp only [Piece.text, size_cons, size_nil]
          omega
      | string s | comment s =>
          rcases List.mem_cons.mp h with rfl | h
          · simp only [Piece.text]
            omega
          · have hle := ih h
            simp only [Piece.text]
            omega

/-- A row that begins later has its spans later. -/
theorem spansFrom_add (start k : Nat) (ps : List Piece) :
    spansFrom (start + k) ps = (spansFrom start ps).map fun s => ⟨s.start + k, s.stop + k⟩ := by
  induction ps generalizing start with
  | nil => rfl
  | cons p ps ih =>
      cases p with
      | plain c => simp only [spansFrom, ← ih, Nat.add_right_comm]
      | string s | comment s =>
          simp only [spansFrom, List.map_cons, ← ih, Nat.add_right_comm]

section

variable {t : Text} {ps qs : List Piece} (h : pieces t = ps ++ qs)

include h

/-- Whether a position is in a literal is seen from the pieces around it. -/
theorem inLiteral_front_iff {i : Nat} (hi : i < size (textOf ps)) :
    InLiteral t i ↔ ∃ span ∈ spansFrom 0 ps, span.contains i = true := by
  unfold InLiteral literalSpans
  rw [h, spansFrom_append]
  constructor
  · rintro ⟨span, hspan, hcontains⟩
    rcases List.mem_append.mp hspan with hspan | hspan
    · exact ⟨span, hspan, hcontains⟩
    · have hle := le_start_of_mem_spansFrom hspan
      simp only [Span.contains, Bool.and_eq_true, decide_eq_true_eq] at hcontains
      omega
  · rintro ⟨span, hspan, hcontains⟩
    exact ⟨span, List.mem_append_left _ hspan, hcontains⟩

/-- The same behind the pieces, counted from their end. -/
theorem inLiteral_behind_iff (i : Nat) :
    InLiteral t (size (textOf ps) + i) ↔ ∃ span ∈ spansFrom 0 qs, span.contains i = true := by
  unfold InLiteral literalSpans
  rw [h, spansFrom_append, spansFrom_add]
  constructor
  · rintro ⟨span, hspan, hcontains⟩
    simp only [Span.contains, Bool.and_eq_true, decide_eq_true_eq] at hcontains
    rcases List.mem_append.mp hspan with hfront | hmem
    · have hle := stop_le_of_mem_spansFrom hfront
      omega
    · obtain ⟨span', hspan', rfl⟩ := List.mem_map.mp hmem
      refine ⟨span', hspan', ?_⟩
      simp only [Span.contains, Bool.and_eq_true, decide_eq_true_eq]
      dsimp only at hcontains
      omega
  · rintro ⟨span, hspan, hcontains⟩
    refine ⟨_, List.mem_append_right _ (List.mem_map_of_mem hspan), ?_⟩
    simp only [Span.contains, Bool.and_eq_true, decide_eq_true_eq] at hcontains ⊢
    omega

end

/-! ### Scans one after the other -/

namespace Cut

variable {α : Type} {find? find?' : Text → Text → Option (α × Nat)}

/-- A cut text behind another one. -/
def follow (c d : Cut α) : Cut α := ⟨c.parts ++ (d.prepend c.rest).parts, (d.prepend c.rest).rest⟩

/-- Behind a text without items. -/
@[simp] theorem whole_follow (t : Text) (d : Cut α) : (whole t).follow d = d.prepend t := rfl

/-- Text in front stays in front. -/
@[simp] theorem prepend_follow (t : Text) (c d : Cut α) :
    (c.prepend t).follow d = (c.follow d).prepend t := by
  obtain ⟨parts, rest⟩ := c
  cases parts with
  | nil => exact (prepend_prepend t rest d).symm
  | cons part parts => rfl

/-- So does an item. -/
@[simp] theorem item_follow (a : α) (c d : Cut α) : (c.item a).follow d = (c.follow d).item a := rfl

/-- The items of both, in order. -/
@[simp] theorem items_follow (c d : Cut α) : (c.follow d).items = c.items ++ d.items := by
  have hitems := items_prepend c.rest d
  simp only [items] at hitems
  simp only [items, follow, List.map_append, hitems]

/-- A scan goes over the front of a text as another one does that ends there, if at
each place they find the same, and nothing that reaches over the end. -/
theorem scanFrom_append {u w behind : Text} {skip : Nat} (hskip : skip ≤ u.length)
    (hsame : ∀ x y, u = x ++ y → y ≠ [] →
      find? (x.reverse ++ behind) (y ++ w) = find?' (x.reverse ++ behind) y)
    (htaken : ∀ x y a n, u = x ++ y → find?' (x.reverse ++ behind) y = some (a, n) → n ≤ y.length) :
    scanFrom find? behind skip (u ++ w)
      = (scanFrom find?' behind skip u).follow (scanFrom find? (u.reverse ++ behind) 0 w) := by
  induction u generalizing behind skip with
  | nil =>
      obtain rfl : skip = 0 := Nat.le_zero.mp hskip
      simp [scanFrom]
  | cons d r ih =>
      -- The hypotheses about the places of the text hold of those behind its first character.
      have hlater : ∀ {skip : Nat}, skip ≤ r.length →
          scanFrom find? (d :: behind) skip (r ++ w)
            = (scanFrom find?' (d :: behind) skip r).follow
                (scanFrom find? ((d :: r).reverse ++ behind) 0 w) := by
        intro skip hle
        rw [List.reverse_cons, List.append_assoc, List.singleton_append]
        refine ih hle (fun x y hr hy => ?_) (fun x y a n hr hfind => ?_)
        · have hplace := hsame (d :: x) y (by rw [hr, List.cons_append]) hy
          simpa using hplace
        · exact htaken (d :: x) y a n (by rw [hr, List.cons_append]) (by simpa using hfind)
      rw [List.cons_append]
      cases skip with
      | succ skip => exact hlater (Nat.le_of_succ_le_succ hskip)
      | zero =>
          have hhere : find? behind (d :: (r ++ w)) = find?' behind (d :: r) :=
            hsame [] (d :: r) rfl (by simp)
          rw [scanFrom, scanFrom, hhere]
          cases hfind : find?' behind (d :: r) with
          | none =>
              dsimp only
              rw [prepend_follow, hlater (Nat.zero_le _)]
          | some found =>
              obtain ⟨a, n⟩ := found
              -- What is found ends before `w`, so the scan is back in step there.
              have hle : n ≤ (d :: r).length := htaken [] (d :: r) a n rfl hfind
              dsimp only
              rw [item_follow, hlater (by rw [List.length_cons] at hle; omega)]

/-- Two scans over the same text, at each place of which they find the same. -/
theorem scanFrom_congr {behind behind' ahead : Text} {skip : Nat}
    (hsame : ∀ x y, ahead = x ++ y → find? (x.reverse ++ behind) y = find?' (x.reverse ++ behind') y) :
    scanFrom find? behind skip ahead = scanFrom find?' behind' skip ahead := by
  induction ahead generalizing behind behind' skip with
  | nil => cases skip <;> rfl
  | cons c r ih =>
      -- From the next character on, with one character more behind.
      have hlater : ∀ {skip : Nat},
          scanFrom find? (c :: behind) skip r = scanFrom find?' (c :: behind') skip r := by
        intro skip
        refine ih fun x y hr => ?_
        have hplace := hsame (c :: x) y (by rw [hr, List.cons_append])
        simpa using hplace
      cases skip with
      | succ skip => exact hlater
      | zero =>
          have hhere : find? behind (c :: r) = find?' behind' (c :: r) := hsame [] (c :: r) rfl
          rw [scanFrom, scanFrom, ← hhere]
          cases find? behind (c :: r) with
          | none => rw [hlater]
          | some found =>
              dsimp only
              rw [hlater]

/-- A scan passes over a text in which it finds nothing. -/
theorem scanFrom_passes {behind u w : Text}
    (hnone : ∀ x y, u = x ++ y → y ≠ [] → find? (x.reverse ++ behind) (y ++ w) = none) :
    scanFrom find? behind 0 (u ++ w) = (scanFrom find? (u.reverse ++ behind) 0 w).prepend u := by
  induction u generalizing behind with
  | nil => simp
  | cons c u ih =>
      have hhere : find? behind (c :: (u ++ w)) = none := hnone [] (c :: u) rfl (by simp)
      rw [List.cons_append, scanFrom_pass hhere, ih]
      · simp
      · intro x y hu hy
        have hplace := hnone (c :: x) y (by rw [hu, List.cons_append]) hy
        simpa using hplace

end Cut

/-! ### Directives before a comment -/

namespace Include

/-- Text that does not hold `d` is read off a text as if the text ended before `d`. -/
theorem after?_append_cons {front : Text} {d : Char} (h : d ∉ front) (y w : Text) :
    after? front (y ++ d :: w) = (after? front y).map (· ++ d :: w) := by
  fun_induction after? front y with
  | case1 y => rw [after?]; rfl
  | case2 f fs =>
      have hd : d ≠ f := fun heq => h (heq ▸ List.mem_cons_self)
      rw [List.nil_append, after?, if_neg hd]
      rfl
  | case3 f fs r ih =>
      rw [List.cons_append, after?, if_pos rfl, ih fun hmem => h (List.mem_cons_of_mem _ hmem)]
  | case4 f fs c r hc =>
      rw [List.cons_append, after?, if_neg hc]
      rfl

/-- A name in quotes ends with the text, or its line does. -/
theorem quoted?_append {q : Char} {y : Text} (hends : q ∈ y ∨ '\n' ∈ y) (z : Text) :
    quoted? (q :: (y ++ z)) = (quoted? (q :: y)).map fun found => (found.1, found.2 ++ z) := by
  have hne : y.dropWhile (fun c => c != q && c != '\n') ≠ [] := by
    intro hnil
    have hall := List.dropWhile_eq_nil_iff.mp hnil
    rcases hends with hq | hline
    · simpa using hall q hq
    · simpa using hall '\n' hline
  obtain ⟨htake, hdrop⟩ := span_append hne z
  obtain ⟨d, r, hbehind⟩ := List.exists_cons_of_ne_nil hne
  unfold quoted?
  dsimp only
  rw [htake, hdrop, hbehind, List.cons_append]
  dsimp only
  split
  · rfl
  · split <;> rfl

/-- All strings that begin in a text end before the text does, or their lines do. -/
def EndsNames (y : Text) : Prop :=
  ∀ s q r, y = s ++ q :: r → isQuote q = true → FreeOf literalMarks s → q ∈ r ∨ '\n' ∈ r

/-- The text without a semicolon in front. -/
def pastSemicolon : Text → Text
  | [] => []
  | c :: s => if c = ';' then s else c :: s

/-- A slash is no semicolon, so what is skipped before it does not depend on
it. -/
theorem length_pastSemicolon_append (s w : Text) :
    (pastSemicolon (s ++ '/' :: w)).length = (pastSemicolon s).length + ('/' :: w).length := by
  cases s with
  | nil => simp [pastSemicolon]
  | cons c s =>
      rw [List.cons_append, pastSemicolon, pastSemicolon]
      split
      · exact List.length_append
      · rw [← List.cons_append]
        exact List.length_append

/-- How a directive is read, step by step. -/
theorem take?_eq (t : Text) :
    take? t = (after? "@include".toList t).bind fun r =>
      (quoted? (r.dropWhile isBlank)).bind fun found =>
        if r.head?.any isBlank then
          some (trim found.1, t.length - (pastSemicolon (found.2.dropWhile isBlank)).length)
        else none := by
  unfold take?
  cases after? "@include".toList t with
  | none => rfl
  | some r =>
      rw [Option.bind_some]
      dsimp only
      cases quoted? (r.dropWhile isBlank) with
      | none => rfl
      | some found =>
          rw [Option.bind_some]
          dsimp only
          cases hblank : r.head?.any isBlank with
          | false => rfl
          | true =>
              simp only [Bool.not_true, Bool.false_eq_true, if_false, if_true]
              -- What is left to compare is the semicolon, which is matched as a pattern in the
              -- one and compared in the other.
              cases found.2.dropWhile isBlank with
              | nil => rfl
              | cons c s =>
                  rw [pastSemicolon]
                  by_cases hc : c = ';'
                  · subst hc
                    rfl
                  · rw [if_neg hc]
                    split
                    · rename_i heq
                      exact absurd (List.cons.inj heq).1 hc
                    · rfl

/-- A directive before a slash is the directive without it. -/
theorem take?_append_slash {y : Text} (h : EndsNames y) (w : Text) : take? (y ++ '/' :: w) = take? y := by
  rw [take?_eq, take?_eq, after?_append_cons (by decide), Option.bind_map]
  refine Option.bind_congr fun r hafter => ?_
  rw [Function.comp_apply, dropWhile_append_mark (by decide)]
  cases hname : r.dropWhile isBlank with
  | nil => rfl
  | cons q r' =>
      rw [List.cons_append]
      by_cases hq : isQuote q = true
      · -- The name begins before the slash, so it ends there, or its line does.
        have hends : q ∈ r' ∨ '\n' ∈ r' := by
          refine h ("@include".toList ++ r.takeWhile isBlank) q r' ?_ hq ?_
          · rw [List.append_assoc, ← hname, List.takeWhile_append_dropWhile,
              ← eq_append_of_after? hafter]
          · refine freeOf_append.mpr ⟨by decide, ?_⟩
            exact freeOf_of_forall (by decide) fun c hc => List.mem_takeWhile_imp hc
        have hhead : (r ++ '/' :: w).head? = r.head? := by
          cases r with
          | nil => cases hname
          | cons c r => rfl
        rw [quoted?_append hends, Option.bind_map, hhead]
        refine Option.bind_congr fun found _ => ?_
        rw [Function.comp_apply, dropWhile_append_mark (by decide), length_pastSemicolon_append,
          List.length_append, Nat.add_sub_add_right]
      · -- Without a quote there is no name, whatever follows.
        have hnone : ∀ r, quoted? (q :: r) = none := fun r => by simp [quoted?, hq]
        rw [hnone, hnone]
        rfl

/-- The strings before a comment end before it, or their lines do. -/
theorem endsNames_of_row {ys after : List Piece} {x : Text}
    (h : IsRow (ys ++ .comment ('/' :: x) :: after)) : EndsNames (textOf ys) := by
  intro s q r hsplit hq hs
  have hpieces : pieces (textOf ys ++ '/' :: (x ++ textOf after)) = ys ++ .comment ('/' :: x) :: after := by
    have hrow := h
    rw [IsRow, textOf_append, textOf_cons] at hrow
    exact hrow
  rw [hsplit, List.append_assoc, pieces_append_of_freeOf hs, List.cons_append] at hpieces
  cases hstring : Literal.takeString q (r ++ '/' :: (x ++ textOf after)) with
  | mk inside rest =>
  have htake := Literal.take?_quote hq (r ++ '/' :: (x ++ textOf after))
  rw [hstring] at htake
  rw [pieces_of_take? htake] at hpieces
  -- The string is one of the pieces before the comment.
  obtain ⟨zs, hys, hbehind⟩ : ∃ zs, ys = s.map .plain ++ .string (q :: inside) :: zs
      ∧ pieces rest = zs ++ .comment ('/' :: x) :: after := by
    rcases List.append_eq_append_iff.mp hpieces with ⟨zs, hys, heq⟩ | ⟨zs, hmap, heq⟩
    · cases zs with
      | nil => cases heq
      | cons z zs =>
          obtain ⟨rfl, hrest⟩ := List.cons.inj heq
          exact ⟨zs, hys, hrest⟩
    · cases zs with
      | nil => cases heq
      | cons z zs =>
          obtain ⟨rfl, -⟩ := List.cons.inj heq
          have hmem : Piece.comment ('/' :: x) ∈ s.map .plain := by
            rw [hmap]
            simp
          obtain ⟨c, -, hc⟩ := List.mem_map.mp hmem
          cases hc
  have hr : r = inside ++ textOf zs := by
    have htext := congrArg textOf hys
    rw [hsplit, textOf_append, textOf_map_plain, textOf_cons] at htext
    exact (List.cons.inj (List.append_cancel_left htext)).2
  have hrest : rest = textOf zs ++ '/' :: (x ++ textOf after) := by
    rw [← text_pieces rest, hbehind, textOf_append, textOf_cons]
    rfl
  by_cases hline : rest.head? = some '\n'
  · -- The line ends behind the string, and before the comment.
    refine .inr ?_
    rw [hrest] at hline
    cases hzs : textOf zs with
    | nil =>
        rw [hzs] at hline
        cases hline
    | cons c z =>
        rw [hzs] at hline
        cases hline
        rw [hr, hzs]
        exact List.mem_append_right _ List.mem_cons_self
  · refine .inl ?_
    have hends := Literal.endsString_of_rest (t := r ++ '/' :: (x ++ textOf after)) hq
      (by rw [hstring, hrest]; simp) (by rwa [hstring])
    rw [hstring] at hends
    rw [hr]
    exact List.mem_append_left _ (List.mem_of_getLast? (Literal.getLast?_of_endsString hends))

/-! ### Two texts that differ in a comment -/

section

variable {t : Text} {before after : List Piece} {x : Text}
  (h : pieces t = before ++ .comment ('/' :: x) :: after)

include h

/-- The text is what stands before the comment, the comment, and what stands
behind it. -/
theorem eq_append_of_pieces : t = textOf before ++ '/' :: (x ++ textOf after) := by
  rw [← text_pieces t, h, textOf_append, textOf_cons]
  rfl

/-- The pieces from a place on that is before the comment and outside literals. -/
theorem exists_row {u y : Text} (hsplit : textOf before = u ++ y) (hne : y ≠ [])
    (hout : ¬ InLiteral t (size u)) :
    ∃ ys, textOf ys = y ∧ IsRow (ys ++ .comment ('/' :: x) :: after) := by
  obtain ⟨c, r, rfl⟩ := List.exists_cons_of_ne_nil hne
  have ht : t = u ++ c :: (r ++ '/' :: (x ++ textOf after)) := by
    rw [eq_append_of_pieces h, hsplit]
    simp
  rw [ht] at hout
  -- The place divides the pieces, and so does the comment; it comes later.
  obtain ⟨us, vs, hpieces, hus, -⟩ := exists_pieces_of_outside hout
  have hrow := isRow_pieces t
  rw [h] at hrow
  rw [← ht, h] at hpieces
  rcases List.append_eq_append_iff.mp hpieces with ⟨zs, rfl, -⟩ | ⟨ys, rfl, -⟩
  · -- The pieces before the place do not go on up to the comment.
    rw [textOf_append, hsplit, List.append_assoc] at hus
    have hlength := congrArg List.length hus
    simp only [List.length_append, List.length_cons] at hlength
    omega
  · refine ⟨ys, ?_, ?_⟩
    · rw [textOf_append, hus] at hsplit
      exact List.append_cancel_left hsplit
    · rw [List.append_assoc] at hrow
      exact hrow.behind

/-- What is found before the comment is found without it. -/
theorem outsideAt?_before {u y : Text} (hsplit : textOf before = u ++ y) (hne : y ≠ []) :
    outsideAt? t u.reverse (y ++ '/' :: (x ++ textOf after))
      = outsideAt? (textOf before) u.reverse y := by
  have hlt : size u < size (textOf before) := by
    have hpos := size_pos hne
    rw [hsplit, size_append]
    omega
  have hrow : IsRow before := by
    have hrow := isRow_pieces t
    rw [h] at hrow
    exact hrow.front
  have hfront : InLiteral t (size u) ↔ InLiteral (textOf before) (size u) := by
    rw [inLiteral_front_iff h hlt, InLiteral, literalSpans, hrow]
  unfold outsideAt?
  rw [size_reverse]
  by_cases hin : InLiteral t (size u)
  · rw [if_pos hin, if_pos (hfront.mp hin)]
  · obtain ⟨ys, rfl, hys⟩ := exists_row h hsplit hne hin
    rw [if_neg hin, if_neg fun hbefore => hin (hfront.mpr hbefore),
      take?_append_slash (endsNames_of_row hys)]

/-- Nothing is found in the comment. -/
theorem outsideAt?_comment {u : Text} (hlt : size u < size ('/' :: x)) (ahead : Text) :
    outsideAt? t (u.reverse ++ (textOf before).reverse) ahead = none := by
  have hin : InLiteral t (size (textOf before) + size u) := by
    refine (inLiteral_behind_iff h _).mpr ⟨⟨0, 0 + size ('/' :: x)⟩, List.mem_cons_self, ?_⟩
    simpa [Span.contains] using hlt
  rw [outsideAt?, size_append, size_reverse, size_reverse, Nat.add_comm, if_pos hin]

/-- What is found behind the comment is found without it. -/
theorem outsideAt?_behind (u ahead : Text) :
    outsideAt? t (u.reverse ++ (('/' :: x).reverse ++ (textOf before).reverse)) ahead
      = outsideAt? (textOf after) u.reverse ahead := by
  have hrow : IsRow after := by
    have hrow := isRow_pieces t
    rw [h] at hrow
    exact hrow.behind.tail
  have hfront : pieces t = (before ++ [.comment ('/' :: x)]) ++ after := by
    rw [h]
    simp
  -- Positions are counted from the end of the comment.
  have hsize : size (u.reverse ++ (('/' :: x).reverse ++ (textOf before).reverse))
      = size (textOf (before ++ [.comment ('/' :: x)])) + size u := by
    simp only [size_append, size_reverse, textOf_append, textOf_cons, textOf_nil, Piece.text, size_nil]
    omega
  have hin : InLiteral t (size (u.reverse ++ (('/' :: x).reverse ++ (textOf before).reverse)))
      ↔ InLiteral (textOf after) (size u.reverse) := by
    rw [hsize, inLiteral_behind_iff hfront, size_reverse, InLiteral, literalSpans, hrow]
  simp only [outsideAt?, hin]

/-- The directives outside literals are those before a comment and those behind it:
what stands in the comment does not matter. -/
theorem outsideCut_eq :
    outsideCut t
      = (outsideCut (textOf before)).follow ((outsideCut (textOf after)).prepend ('/' :: x)) := by
  -- The scan in three parts: up to the comment, over it, and behind it.
  have hfront : Cut.scan (outsideAt? t) (textOf before ++ '/' :: (x ++ textOf after))
      = (outsideCut (textOf before)).follow
          (Cut.scanFrom (outsideAt? t) ((textOf before).reverse ++ []) 0
            ('/' :: x ++ textOf after)) := by
    refine Cut.scanFrom_append (Nat.zero_le _) (fun u y hsplit hne => ?_) (fun u y a n _ hfind => ?_)
    · rw [List.append_nil]
      exact outsideAt?_before h hsplit hne
    · unfold outsideAt? at hfind
      split at hfind
      · cases hfind
      · obtain ⟨taken, rest, rfl, rfl, -⟩ := exists_taken hfind
        simp
  have hcomment : Cut.scanFrom (outsideAt? t) (textOf before).reverse 0 ('/' :: x ++ textOf after)
      = (Cut.scanFrom (outsideAt? t) (('/' :: x).reverse ++ (textOf before).reverse) 0
          (textOf after)).prepend ('/' :: x) := by
    refine Cut.scanFrom_passes fun u y hsplit hne => outsideAt?_comment h ?_ _
    have hpos := size_pos hne
    rw [hsplit, size_append]
    omega
  have hbehind : Cut.scanFrom (outsideAt? t) (('/' :: x).reverse ++ (textOf before).reverse) 0
      (textOf after) = outsideCut (textOf after) := by
    refine Cut.scanFrom_congr fun u y _ => ?_
    rw [List.append_nil]
    exact outsideAt?_behind h u y
  rw [List.append_nil, hcomment, hbehind, ← eq_append_of_pieces h] at hfront
  exact hfront

end

end Include

/-! ### Spaces for the inside of a comment -/

/-- What closes a comment: its mark, if it has one. -/
def closingMark (s : Text) : Text := if (Piece.comment s).closed then ['*', '/'] else []

/-- A comment with spaces for its inside. -/
def spacedComment (k : Nat) (s : Text) : Text := '/' :: '*' :: (List.replicate k ' ' ++ closingMark s)

/-- Spaces close no comment. -/
theorem takeComment_spaces (k : Nat) (t : Text) :
    Literal.takeComment (List.replicate k ' ' ++ t)
      = (List.replicate k ' ' ++ (Literal.takeComment t).1, (Literal.takeComment t).2) := by
  induction k with
  | zero => rfl
  | succ k ih =>
      rw [List.replicate_succ, List.cons_append]
      cases hnext : List.replicate k ' ' ++ t with
      | nil =>
          obtain ⟨hk, rfl⟩ := List.append_eq_nil_iff.mp hnext
          rw [hk]
          rfl
      | cons d r =>
          rw [hnext] at ih
          rw [Literal.takeComment]
          simp [ih]

/-- A comment is its mark, its inside and what closes it; if nothing does, nothing
follows it. -/
theorem IsRow.exists_inside {s : Text} {after : List Piece} (h : IsRow (.comment s :: after)) :
    (∃ inside, s = '/' :: '*' :: (inside ++ closingMark s)) ∧ (closingMark s = [] → after = []) := by
  have htake := h.take?_eq_some (by simp)
  rcases Literal.take?_cases htake with ⟨q, r, -, -, hp, -⟩ | ⟨r, -, hp, hrest⟩
  · cases hp
  · obtain rfl : s = '/' :: '*' :: (Literal.takeComment r).1 := by simpa using hp
    unfold closingMark
    cases hclosed : (Piece.comment ('/' :: '*' :: (Literal.takeComment r).1)).closed with
    | true =>
        obtain ⟨inside, hinside⟩ := List.isSuffixOf_iff_suffix.mp hclosed
        refine ⟨⟨inside, ?_⟩, fun hnil => ?_⟩
        · rw [if_pos rfl]
          exact congrArg ('/' :: '*' :: ·) hinside.symm
        · rw [if_pos rfl] at hnil
          cases hnil
    | false =>
        refine ⟨⟨(Literal.takeComment r).1, by simp⟩, fun _ => ?_⟩
        -- A comment that is not closed goes on to the end of the text.
        have hnil : textOf after = [] := by
          by_contra hne
          have hends := Literal.endsComment_of_rest (t := r) (by rwa [← hrest])
          exact absurd (hclosed.symm.trans hends) (by simp)
        have hrow : pieces (textOf after) = after := h.tail
        rw [← hrow, hnil, pieces]

/-- A comment with spaces for its inside is a comment at the same place. -/
theorem pieces_spacedComment {t s : Text} {before after : List Piece}
    (h : pieces t = before ++ .comment s :: after) (k : Nat) :
    pieces (textOf before ++ (spacedComment k s ++ textOf after))
      = before ++ .comment (spacedComment k s) :: after := by
  have hrow := isRow_pieces t
  rw [h] at hrow
  obtain ⟨⟨inside, hs⟩, hopen⟩ := hrow.behind.exists_inside
  -- The closing mark, or the end of the text, closes the spaces too.
  have hclose : Literal.takeComment (closingMark s ++ textOf after) = (closingMark s, textOf after) := by
    by_cases hclosed : (Piece.comment s).closed = true
    · rw [closingMark, if_pos hclosed]
      simp [Literal.takeComment]
    · have hnil : closingMark s = [] := if_neg hclosed
      rw [hnil, hopen hnil]
      rfl
  have hspaced : IsRow (.comment (spacedComment k s) :: after) := by
    show pieces (spacedComment k s ++ textOf after) = .comment (spacedComment k s) :: after
    have htake := Literal.take?_comment (List.replicate k ' ' ++ (closingMark s ++ textOf after))
    rw [takeComment_spaces, hclose] at htake
    have hbehind : pieces (textOf after) = after := hrow.behind.tail
    rw [spacedComment, List.cons_append, List.cons_append, List.append_assoc, pieces_of_take? htake, hbehind]
  have htext : textOf (.comment s :: after) = '/' :: ('*' :: (inside ++ closingMark s) ++ textOf after) := by
    rw [textOf_cons]
    exact congrArg (· ++ textOf after) hs
  have htextSpaced : textOf (.comment (spacedComment k s) :: after)
      = '/' :: ('*' :: (List.replicate k ' ' ++ closingMark s) ++ textOf after) := textOf_cons _ _
  -- Only what the comment begins with can be seen from the pieces before it.
  have hswap := hrow.swap htext htextSpaced hspaced
  rw [IsRow, textOf_append, textOf_cons] at hswap
  exact hswap

namespace Include

/-- The directives that are resolved are those outside literals, and stay the same
and in their places if spaces stand for the inside of a comment, just if nothing is
hidden. -/
theorem resolveIncludes_outside_iff (t : Text) :
    (∀ dir, resolveIncludes dir t = (do
      let job ← read
      (honoured (cut t)).fillM fun name =>
        expandItem (deeperOf job.tree.fileCount) dir (.directive name)))
    ∧ (honoured (cut t) = outsideCut t ↔ ¬ Hides t)
    ∧ ∀ before s after k t', pieces t = before ++ .comment s :: after →
      t' = textOf before ++ (spacedComment k s ++ textOf after) →
      (∃ inside, s = '/' :: '*' :: (inside ++ closingMark s))
      ∧ pieces t' = before ++ .comment (spacedComment k s) :: after
      ∧ (honoured (cut t)
          = (outsideCut (textOf before)).follow ((outsideCut (textOf after)).prepend s) ↔ ¬ Hides t)
      ∧ (honoured (cut t')
          = (outsideCut (textOf before)).follow
              ((outsideCut (textOf after)).prepend (spacedComment k s)) ↔ ¬ Hides t')
      ∧ (¬ Hides t → ¬ Hides t' → (honoured (cut t')).items = (honoured (cut t)).items) := by
  refine ⟨fun dir => resolveIncludes_eq dir t, honoured_cut_eq_iff t, ?_⟩
  rintro before s after k t' h rfl
  have hspaced := pieces_spacedComment h k
  have hrow := isRow_pieces t
  rw [h] at hrow
  obtain ⟨inside, hs⟩ := hrow.behind.exists_inside.1
  -- For each of the two texts, the cut outside
  -- literals is made of the parts around the comment.
  have hiff : honoured (cut t)
      = (outsideCut (textOf before)).follow ((outsideCut (textOf after)).prepend s) ↔ ¬ Hides t := by
    have hcut := outsideCut_eq (x := '*' :: (inside ++ closingMark s)) (by rw [h, ← hs])
    rw [← hs] at hcut
    rw [← hcut]
    exact honoured_cut_eq_iff t
  have hiffSpaced : honoured (cut (textOf before ++ (spacedComment k s ++ textOf after)))
      = (outsideCut (textOf before)).follow
          ((outsideCut (textOf after)).prepend (spacedComment k s))
      ↔ ¬ Hides (textOf before ++ (spacedComment k s ++ textOf after)) := by
    have hcut := outsideCut_eq hspaced
    rw [← spacedComment] at hcut
    rw [← hcut]
    exact honoured_cut_eq_iff _
  refine ⟨⟨inside, hs⟩, hspaced, hiff, hiffSpaced, fun hshown hshownSpaced => ?_⟩
  rw [hiff.mpr hshown, hiffSpaced.mpr hshownSpaced]
  simp

/-- A text with directives before and behind a comment and one in it, and with one in
a string. -/
def commented : Text :=
  "@include 'a.css';/* @include 'b.css'; */@include \"c.css\" x\x7by:\"@include 'd.css';\"\x7d".toList

/-- Two directives are resolved, with the comment as it is and with spaces in
it. -/
theorem resolveIncludes_outside_commented :
    honoured (cut commented) = outsideCut commented
    ∧ (outsideCut commented).items = ["a.css".toList, "c.css".toList]
    ∧ (honoured (cut ("@include 'a.css';".toList ++ (spacedComment 19 "/* @include 'b.css'; */".toList
          ++ "@include \"c.css\" x\x7by:\"@include 'd.css';\"\x7d".toList)))).parts
        = [([], "a.css".toList), ("/*                   */".toList, "c.css".toList)] := by
  obtain ⟨-, hiff, hspaced⟩ := resolveIncludes_outside_iff commented
  refine ⟨hiff.mpr (by decide +kernel), by decide +kernel, ?_⟩
  have hblank := hspaced (pieces "@include 'a.css';".toList) "/* @include 'b.css'; */".toList
    (pieces "@include \"c.css\" x\x7by:\"@include 'd.css';\"\x7d".toList) 19 _ (by decide +kernel) rfl
  rw [text_pieces, text_pieces] at hblank
  rw [hblank.2.2.2.1.mpr (by decide +kernel)]
  decide +kernel

/-- The apostrophe in a comment begins a name, which ends at the apostrophe of the
directive behind the comment. -/
def overrun : Text := "/* @include '*/@include 'a.css';".toList

/-- So the directive is not resolved, and it is if spaces stand for the inside
of the comment. -/
theorem resolveIncludes_overrun :
    (outsideCut overrun).items = ["a.css".toList] ∧ (honoured (cut overrun)).items = []
    ∧ pieces overrun
        = .comment "/* @include '*/".toList :: pieces "@include 'a.css';".toList
    ∧ (honoured (cut (spacedComment 11 "/* @include '*/".toList ++ "@include 'a.css';".toList))).items
        = ["a.css".toList] := by
  decide +kernel

end Include

end Stylesheet
