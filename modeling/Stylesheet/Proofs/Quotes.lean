import Stylesheet.Proofs.Separators

/-!
# Texts that are cut in two

Parts of a text are read again without what stood around them. Where a text is
cut between two pieces, nothing changes. `pieces_append_cases` says what happens
elsewhere: one piece is cut, and what is left of it at the end of the first part
is a string if the piece was one.

`StringsClosed` says of a text that every string in it has its closing quote.
Comments may be open. Parts between separators keep this, and so does trimming,
which leaves the strings as they are (`strings_trim_eq`).
-/

set_option autoImplicit false

namespace Stylesheet

namespace Literal

/-- What follows an open comment goes on with it. -/
theorem exists_takeComment_append {t : Text} (hall : (takeComment t).2 = [])
    (hopen : endsComment (takeComment t).1 = false) (r : Text) :
    ∃ more rest, takeComment (t ++ r) = (t ++ more, rest) ∧ r = more ++ rest := by
  fun_induction takeComment t with
  | case1 => exact ⟨(takeComment r).1, (takeComment r).2, rfl, (takeComment_append r).symm⟩
  -- A star at the end may be closed by a slash that follows.
  | case2 c =>
      cases r with
      | nil => exact ⟨[], [], rfl, rfl⟩
      | cons d r =>
          by_cases hcd : (c == '*' && d == '/') = true
          · exact ⟨[d], r, by simp [takeComment, hcd], rfl⟩
          · refine ⟨(takeComment (d :: r)).1, (takeComment (d :: r)).2, ?_,
              (takeComment_append _).symm⟩
            simp [takeComment, hcd]
  | case3 c d r' hcd =>
      simp only [Bool.and_eq_true, beq_iff_eq] at hcd
      subst hall
      rw [hcd.1, hcd.2] at hopen
      cases hopen
  | case4 c d r' hcd inside rest heq ih =>
      have hhead := head?_takeComment d r'
      rw [heq] at ih hhead
      rw [endsComment_cons hcd hhead] at hopen
      obtain ⟨more, rest', htake, hr⟩ := ih hall hopen
      refine ⟨more, rest', ?_, hr⟩
      rw [List.cons_append] at htake
      simp [takeComment, hcd, htake]

/-- What follows an open string goes on with it, unless it ends its line. -/
theorem exists_takeString_append {q : Char} (hq : isQuote q = true) {t : Text}
    (hall : (takeString q t).2 = []) (hopen : endsString q (takeString q t).1 = false) (r : Text) :
    ∃ more rest, takeString q (t ++ r) = (t ++ more, rest) ∧ r = more ++ rest := by
  rcases stringBody_cases q t with ht | ⟨body, rfl, hbody⟩ | ⟨body, c, after, rfl, hbody, rfl | rfl⟩
  · exact ⟨_, _, ht.takeString_append r, (takeString_append q r).symm⟩
  · cases r with
    | nil => exact ⟨[], [], by simpa [takeString] using hbody.takeString_append ['\\'], rfl⟩
    | cons d r =>
        refine ⟨d :: (takeString q r).1, (takeString q r).2, ?_, ?_⟩
        · rw [List.append_assoc, List.singleton_append, hbody.takeString_append, takeString_escape]
          simp
        · rw [List.cons_append, takeString_append]
  · rw [hbody.takeString_eq hq] at hopen
    rw [hbody.endsString_eq] at hopen
    cases hopen
  · rw [hbody.takeString_append, takeString_line] at hall
    cases hall

/-- An open literal at the end of a text goes on with what follows. -/
theorem exists_take?_append {t : Text} {p : Piece} (h : take? t = some (p, []))
    (hopen : p.closed = false) (r : Text) :
    ∃ p' more rest, take? (t ++ r) = some (p', rest) ∧ p'.text = p.text ++ more
      ∧ r = more ++ rest ∧ (more = [] → p' = p) ∧ (p.string? = none ↔ p'.string? = none) := by
  -- The literal goes on into the text that is added, and it remains of its kind.
  rcases take?_cases h with ⟨q, r', hq, rfl, rfl, hrest⟩ | ⟨r', rfl, rfl, hrest⟩
  · obtain ⟨more, rest, htake, hr⟩ := exists_takeString_append hq hrest.symm hopen r
    have htext := takeString_append q r'
    rw [← hrest, List.append_nil] at htext
    refine ⟨.string (q :: (r' ++ more)), more, rest, ?_, ?_, hr, ?_, by simp [Piece.string?]⟩
    · rw [List.cons_append, take?_quote hq, htake]
    · simp [Piece.text, htext]
    · rintro rfl
      rw [List.append_nil, htext]
  · obtain ⟨more, rest, htake, hr⟩ := exists_takeComment_append hrest.symm hopen r
    have htext := takeComment_append r'
    rw [← hrest, List.append_nil] at htext
    refine ⟨.comment ('/' :: '*' :: (r' ++ more)), more, rest, ?_, ?_, hr, ?_,
      by simp [Piece.string?]⟩
    · rw [List.cons_append, List.cons_append, take?_comment, htake]
    · simp [Piece.text, htext]
    · rintro rfl
      rw [List.append_nil, htext]

end Literal

/-- Where a text is cut in two, a piece is cut: behind the pieces in front of
it, the first part ends with `p`, and the whole text has `p'`, of which `p` is
the beginning. -/
structure IsCut (u r : Text) (front : List Piece) (p p' : Piece) (back : List Piece) : Prop where
  first : pieces u = front ++ [p]
  whole : pieces (u ++ r) = front ++ p' :: back
  longer : ∃ more, more ≠ [] ∧ p'.text = p.text ++ more
  string_iff : p.string? = none ↔ p'.string? = none

/-- A piece in front of both rows makes no difference. -/
theorem IsCut.cons {u w r : Text} {q p p' : Piece} {front back : List Piece}
    (h : IsCut w r front p p' back) (hu : pieces u = q :: pieces w)
    (hur : pieces (u ++ r) = q :: pieces (w ++ r)) : IsCut u r (q :: front) p p' back where
  first := by rw [hu, h.first]; rfl
  whole := by rw [hur, h.whole]; rfl
  longer := h.longer
  string_iff := h.string_iff

/-- A text that is cut in two has the pieces of both parts, or else one piece is
cut. -/
theorem pieces_append_cases (u r : Text) :
    pieces (u ++ r) = pieces u ++ pieces r ∨ ∃ front p p' back, IsCut u r front p p' back := by
  -- The induction is on the first part; a piece that is not its last one stays as it is.
  have hcons : ∀ {q : Piece} {u w : Text}, pieces u = q :: pieces w →
      pieces (u ++ r) = q :: pieces (w ++ r) →
      (pieces (w ++ r) = pieces w ++ pieces r ∨ ∃ front p p' back, IsCut w r front p p' back) →
      pieces (u ++ r) = pieces u ++ pieces r ∨ ∃ front p p' back, IsCut u r front p p' back := by
    rintro q u w hu hur (hw | ⟨front, p, p', back, hcut⟩)
    · rw [hur, hu, hw]
      exact .inl rfl
    · exact .inr ⟨q :: front, p, p', back, hcut.cons hu hur⟩
  induction hn : u.length using Nat.strongRecOn generalizing u with
  | ind n ih =>
      cases u with
      | nil => exact .inl (by rw [pieces]; rfl)
      | cons c w =>
          cases htake : Literal.take? (c :: w) with
          | none =>
              by_cases hslash : c = '/' ∧ w = [] ∧ r.head? = some '*'
              · -- A slash at the end begins a comment with the star that follows.
                obtain ⟨rfl, rfl, hstar⟩ := hslash
                obtain ⟨r, rfl⟩ := List.head?_eq_some_iff.mp hstar
                refine .inr ⟨[], .plain '/', _, _, ?_, pieces_of_take? (Literal.take?_comment r),
                  ⟨'*' :: (Literal.takeComment r).1, by simp, rfl⟩, by simp [Piece.string?]⟩
                rw [pieces_of_plain htake, pieces]
                rfl
              · refine hcons (pieces_of_plain htake) (pieces_of_plain ?_)
                  (ih w.length (by simp [← hn]) w rfl)
                rw [Literal.take?_eq_none] at htake ⊢
                refine ⟨htake.1, fun hc hstar => ?_⟩
                cases w with
                | nil => exact hslash ⟨hc, rfl, hstar⟩
                | cons d w => exact htake.2 hc hstar
          | some found =>
              obtain ⟨p, rest⟩ := found
              by_cases hopen : rest = [] ∧ p.closed = false
              · -- What follows an open literal goes on with it.
                obtain ⟨rfl, hopen⟩ := hopen
                obtain ⟨p', more, rest, htake', htext, rfl, hsame, hstring⟩ :=
                  Literal.exists_take?_append htake hopen r
                have hu : pieces (c :: w) = [p] := by rw [pieces_of_take? htake, pieces]
                by_cases hmore : more = []
                · left
                  rw [hu, pieces_of_take? htake', hsame hmore, hmore]
                  rfl
                · exact .inr ⟨[], p, p', pieces rest, hu, pieces_of_take? htake',
                    ⟨more, hmore, htext⟩, hstring⟩
              · refine hcons (pieces_of_take? htake)
                  (pieces_of_take? (Literal.take?_append htake ?_ r)) (ih rest.length ?_ rest rfl)
                · intro hrest
                  simpa [hrest] using hopen
                · rw [← hn]
                  exact Literal.length_lt_of_take? htake

/-- What the cut piece has lost is the beginning of the second part. -/
theorem IsCut.exists_more {u r : Text} {p p' : Piece} {front back : List Piece}
    (h : IsCut u r front p p' back) :
    ∃ more, more ≠ [] ∧ p'.text = p.text ++ more ∧ r = more ++ textOf back := by
  obtain ⟨more, hne, htext⟩ := h.longer
  refine ⟨more, hne, htext, ?_⟩
  have hu := congrArg textOf h.first
  have hur := congrArg textOf h.whole
  rw [text_pieces] at hu hur
  rw [hu] at hur
  simpa [htext] using hur

/-- Only an open piece can be cut, or a slash that the second part makes a
comment. -/
theorem IsCut.closed_eq_false {u r : Text} {p p' : Piece} {front back : List Piece}
    (h : IsCut u r front p p' back) (hslash : p ≠ .plain '/') : p.closed = false := by
  rw [Bool.eq_false_iff]
  intro hclosed
  -- Nothing behind a closed piece would have got into it.
  have happend : pieces (u ++ r) = pieces u ++ pieces r := by
    apply pieces_append_of_last
    · rw [h.first, List.getLast?_concat]
      simpa using hclosed
    · rw [h.first, List.getLast?_concat]
      exact fun hp => absurd (Option.some.inj hp) hslash
  rw [h.first, h.whole, List.append_assoc] at happend
  obtain ⟨rfl, -⟩ := List.cons.inj (List.append_cancel_left happend)
  obtain ⟨more, hne, htext⟩ := h.longer
  exact hne (List.self_eq_append_right.mp htext)

/-! ### Closed strings -/

/-- The string of a piece that is one. -/
theorem string?_eq_some {p : Piece} {s : Text} : p.string? = some s ↔ p = .string s := by
  cases p <;> simp [Piece.string?]

/-- A string that is cut is the beginning of a string. -/
theorem IsCut.exists_string {u r s : Text} {p' : Piece} {front back : List Piece}
    (h : IsCut u r front (.string s) p' back) :
    ∃ more, more ≠ [] ∧ p' = .string (s ++ more) ∧ r = more ++ textOf back := by
  obtain ⟨more, hne, htext, hr⟩ := h.exists_more
  refine ⟨more, hne, ?_, hr⟩
  cases hstring : p'.string? with
  | none => cases h.string_iff.mpr hstring
  | some s' =>
      rw [string?_eq_some.mp hstring] at htext ⊢
      exact congrArg Piece.string htext

/-- The strings of a text are among its pieces. -/
theorem mem_strings {t s : Text} : s ∈ strings t ↔ .string s ∈ pieces t := by
  rw [strings, stringsOf, List.mem_filterMap]
  constructor
  · rintro ⟨p, hp, hstring⟩
    rwa [← string?_eq_some.mp hstring]
  · exact fun hs => ⟨.string s, hs, rfl⟩

/-- A piece by the mark it begins with. -/
theorem mem_pieces_cases {t : Text} {p : Piece} (hp : p ∈ pieces t) :
    (∃ c, p = .plain c) ∨ (∃ q inside, isQuote q = true ∧ p = .string (q :: inside))
      ∨ ∃ inside, p = .comment ('/' :: inside) := by
  fun_induction pieces t with
  | case1 => cases hp
  | case2 c r p' rest h ih =>
      rcases List.mem_cons.mp hp with rfl | hp
      · rcases Literal.take?_cases h with ⟨q, r', hq, -, rfl, -⟩ | ⟨r', -, rfl, -⟩
        · exact .inr (.inl ⟨q, _, hq, rfl⟩)
        · exact .inr (.inr ⟨_, rfl⟩)
      · exact ih hp
  | case3 c r h ih =>
      rcases List.mem_cons.mp hp with rfl | hp
      · exact .inl ⟨c, rfl⟩
      · exact ih hp

/-- A string begins with its quote. -/
theorem exists_quote {t s : Text} (hs : .string s ∈ pieces t) :
    ∃ q inside, isQuote q = true ∧ s = q :: inside := by
  rcases mem_pieces_cases hs with ⟨c, hc⟩ | ⟨q, inside, hq, heq⟩ | ⟨inside, hc⟩
  · cases hc
  · exact ⟨q, inside, hq, Piece.string.inj heq⟩
  · cases hc

/-- Another piece does not count. -/
theorem stringsOf_cons_of_none {p : Piece} (hp : p.string? = none) (ps : List Piece) :
    stringsOf (p :: ps) = stringsOf ps :=
  List.filterMap_cons_none hp

/-- Every string of the text has its closing quote. -/
def StringsClosed (t : Text) : Prop := ∀ s ∈ strings t, (Piece.string s).closed = true

instance (t : Text) : Decidable (StringsClosed t) :=
  inferInstanceAs (Decidable (∀ s ∈ strings t, _))

/-- A closed string of a text, by its quotes. -/
theorem isClosedString_of_mem {t s : Text} (hs : .string s ∈ pieces t)
    (hclosed : (Piece.string s).closed = true) : Literal.IsClosedString s := by
  rcases mem_pieces_closed hs hclosed with ⟨c, hc⟩ | ⟨s', hs', hclosed⟩ | ⟨s', hs', -⟩
  · cases hc
  · rwa [Piece.string.inj hs']
  · cases hs'

/-- Some neighbouring pieces of a text have no other strings. -/
theorem StringsClosed.of_isInfix {t u : Text} (h : StringsClosed t)
    (hu : pieces u <:+: pieces t) : StringsClosed u :=
  fun s hs => h s (mem_strings.mpr (hu.subset (mem_strings.mp hs)))

/-- Cutting at a separator cuts no string, so those of a part are closed if
those of the text are. -/
theorem StringsClosed.of_mem_splitTop {separator : Char} {t part : Text} (h : StringsClosed t)
    (hpart : part ∈ splitTop separator t) : StringsClosed part :=
  h.of_isInfix (isInfix_of_mem_splitTop hpart)

/-- Pieces without quotes are no strings. -/
theorem stringsOf_eq_nil {t : Text} {ps : List Piece} (hps : ps ⊆ pieces t)
    (hfree : ∀ c ∈ textOf ps, isQuote c = false) : stringsOf ps = [] := by
  rw [stringsOf, List.filterMap_eq_nil_iff]
  intro p hp
  rw [Option.eq_none_iff_forall_ne_some]
  intro s hstring
  obtain rfl := string?_eq_some.mp hstring
  obtain ⟨q, inside, hq, rfl⟩ := exists_quote (hps hp)
  have hmem : q ∈ textOf ps := List.mem_flatMap.mpr ⟨_, hp, List.mem_cons_self⟩
  rw [hfree q hmem] at hq
  cases hq

/-- Blanks are cut off at the end, and the strings stay. -/
theorem strings_append_blank {t back : Text} (hback : Text.blank back = true)
    (h : StringsClosed (t ++ back)) : strings (t ++ back) = strings t := by
  rw [Text.blank_iff] at hback
  rcases pieces_append_cases t back with hpieces | ⟨front, p, p', rest, hcut⟩
  · have hgap : pieces back = back.map .plain := by
      have hgap := Text.pieces_gap (Text.blank_iff.mpr hback) []
      rwa [List.append_nil, pieces, List.append_nil] at hgap
    rw [strings, hpieces, stringsOf_append, hgap, stringsOf_map_plain, List.append_nil]
    rfl
  · obtain ⟨more, hne, htext, hsplit⟩ := hcut.exists_more
    cases hstring : p'.string? with
    | none =>
        -- A comment was cut, and there are no quotes behind it.
        have hrest : stringsOf rest = [] := by
          apply stringsOf_eq_nil (t := t ++ back)
          · rw [hcut.whole]
            simp
          · intro c hc
            exact Text.isQuote_eq_false (hback c (by simp [hsplit, hc]))
        rw [strings, strings, hcut.whole, hcut.first, stringsOf_append, stringsOf_append,
          stringsOf_cons_of_none hstring, stringsOf_cons_of_none (hcut.string_iff.mpr hstring),
          hrest]
        rfl
    | some s =>
        -- A closed string does not end with a blank.
        obtain rfl := string?_eq_some.mp hstring
        have hs : .string s ∈ pieces (t ++ back) := by
          rw [hcut.whole]
          simp
        obtain ⟨q, body, hq, rfl, -⟩ := isClosedString_of_mem hs (h s (mem_strings.mpr hs))
        have hlast : more.getLast? = some q := by
          rw [← List.getLast?_append_of_ne_nil _ hne, ← htext, Piece.text, ← List.cons_append,
            List.getLast?_concat]
        have hblank := hback q (by simp [hsplit, List.mem_of_getLast? hlast])
        rw [Text.isQuote_eq_false hblank] at hq
        cases hq

/-- Trimming leaves the strings of a text as they are, if they are closed. -/
theorem strings_trim_eq {t : Text} (h : StringsClosed t) : strings (Text.trim t) = strings t := by
  obtain ⟨front, back, hfront, hback, ht⟩ := Text.exists_eq_trim t
  have hstrings : strings t = strings (Text.trim t ++ back) := by
    conv_lhs => rw [ht]
    rw [strings, Text.pieces_gap hfront, stringsOf_append, stringsOf_map_plain]
    rfl
  rw [hstrings, strings_append_blank hback]
  intro s hs
  rw [← hstrings] at hs
  exact h s hs

/-- Trimming cuts no closed string. -/
theorem StringsClosed.trim {t : Text} (h : StringsClosed t) : StringsClosed (Text.trim t) := by
  intro s hs
  rw [strings_trim_eq h] at hs
  exact h s hs

end Stylesheet
