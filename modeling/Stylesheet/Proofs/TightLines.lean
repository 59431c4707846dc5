import Stylesheet.Proofs.Offsets
import Stylesheet.Proofs.Tightening

/-!
# Tightening a line

In a text of one line a literal that is not closed runs to the end, so it is
the last piece and no mark follows it. `Tightened` tells what becomes of the
text before it, where all literals are closed, and the literal stays behind
that as it is (`tighten_append`).

`tighten_line` says what tightening does to a line. Only blanks go; strings
and comments are the same as before; no blank is left before a mark outside
literals, and no ASCII blank behind one; and there is nothing to do the second
time. That no blank is left is known of pieces (`IsTight`), and a literal
neither begins with a blank nor ends with one where something follows it
(`IsTight.apart`).
-/

set_option autoImplicit false

namespace Stylesheet

open Text

/-! ### Literals -/

/-- Whether a piece is a character outside literals. -/
def Piece.isPlain : Piece → Bool
  | .plain _ => true
  | _ => false

/-- A plain character is one. -/
@[simp] theorem Piece.isPlain_plain (c : Char) : (Piece.plain c).isPlain = true := rfl

/-- The strings and comments of a text, in order. -/
def literals (t : Text) : List Piece := (pieces t).filter (!·.isPlain)

/-- There are no literals among plain characters. -/
theorem filter_isPlain_map (t : Text) : (t.map Piece.plain).filter (!·.isPlain) = [] := by
  rw [List.filter_map]
  exact List.map_eq_nil_iff.mpr (List.filter_eq_nil_iff.mpr fun c _ => by simp)

/-- A literal is no mark. -/
theorem Piece.isMark_of_literal {p : Piece} (h : p.isPlain = false) (around : List Char) :
    p.isMark around = false := by
  cases p with
  | plain c => cases h
  | string s => rfl
  | comment s => rfl

/-- A literal begins with a quote or a slash. -/
theorem head?_of_literal {t : Text} {p : Piece} (hp : p ∈ pieces t) (hliteral : p.isPlain = false) :
    ∃ c, p.text.head? = some c ∧ isBlank c = false ∧ c ≠ '*' := by
  fun_induction pieces t with
  | case1 => cases hp
  | case2 c r p' rest h ih =>
      rcases List.mem_cons.mp hp with rfl | hp
      · rcases Literal.take?_cases h with ⟨q, r, hq, -, rfl, -⟩ | ⟨r, -, rfl, -⟩
        · refine ⟨q, rfl, ?_, Literal.ne_of_isQuote hq (by decide)⟩
          rw [← Bool.not_eq_true]
          intro hblank
          rw [isQuote_eq_false hblank] at hq
          cases hq
        · exact ⟨'/', rfl, by decide, by decide⟩
      · exact ih hp
  | case3 c r h ih =>
      rcases List.mem_cons.mp hp with rfl | hp
      · cases hliteral
      · exact ih hp

/-! ### The end of a line -/

/-- In one line, a literal with something behind it is closed. -/
theorem closed_of_mem_dropLast {t : Text} (hline : '\n' ∉ t) :
    ∀ p ∈ (pieces t).dropLast, p.closed = true := by
  fun_induction pieces t with
  | case1 => simp
  | case2 c r p rest h ih =>
      have htext := Literal.text_append_of_take? h
      have hrestLine : '\n' ∉ rest := by
        rw [← htext] at hline
        exact fun hmem => hline (List.mem_append_right _ hmem)
      by_cases hne : rest = []
      · simp [hne, pieces]
      · rw [List.dropLast_cons_of_ne_nil (pieces_ne_nil hne), List.forall_mem_cons]
        refine ⟨Literal.closed_of_rest h hne fun hhead => ?_, ih hrestLine⟩
        exact hrestLine (List.mem_of_head? hhead)
  | case3 c r h ih =>
      by_cases hne : r = []
      · simp [hne, pieces]
      · rw [List.dropLast_cons_of_ne_nil (pieces_ne_nil hne), List.forall_mem_cons]
        exact ⟨rfl, ih fun hmem => hline (List.mem_cons_of_mem _ hmem)⟩

/-- The literal that is open at the end of a line, if there is one. -/
structure IsEnd (tail : List Piece) : Prop where
  row : IsRow tail
  literal : ∀ p ∈ tail, p.isPlain = false

/-- Nothing may be open. -/
theorem isEnd_nil : IsEnd [] where
  row := by rw [IsRow, textOf_nil, pieces]
  literal := by simp

/-- A line is a text of closed literals and what is open at its end. -/
theorem exists_end {t : Text} (hline : '\n' ∉ t) :
    ∃ u tail, IsEnd tail ∧ (∀ p ∈ pieces u, p.closed = true) ∧ pieces t = pieces u ++ tail := by
  rcases List.eq_nil_or_concat (pieces t) with hnil | ⟨front, p, hsplit⟩
  · exact ⟨t, [], isEnd_nil, by simp [hnil], by rw [List.append_nil]⟩
  · rw [List.concat_eq_append] at hsplit
    have hclosed := closed_of_mem_dropLast hline
    have hrow := isRow_pieces t
    rw [hsplit] at hrow hclosed
    rw [List.dropLast_concat] at hclosed
    -- In one line only the last literal can be open.
    cases hp : p.closed with
    | true =>
        refine ⟨t, [], isEnd_nil, ?_, by rw [List.append_nil]⟩
        rw [hsplit]
        exact List.forall_mem_append.mpr ⟨hclosed, List.forall_mem_singleton.mpr hp⟩
    | false =>
        have hfront : pieces (textOf front) = front := hrow.front
        have hliteral : p.isPlain = false := by
          cases p with
          | plain c => cases hp
          | string s => rfl
          | comment s => rfl
        refine ⟨textOf front, [p], ⟨hrow.behind, by simpa using hliteral⟩, ?_, ?_⟩
        · rwa [hfront]
        · rw [hfront, hsplit]

/-- It may stand behind any text of closed literals. -/
theorem IsEnd.pieces_append {tail : List Piece} (h : IsEnd tail) {w : Text}
    (hclosed : ∀ p ∈ pieces w, p.closed = true) :
    pieces (w ++ textOf tail) = pieces w ++ tail := by
  have hrow : pieces (textOf tail) = tail := h.row
  rw [pieces_append_of_head hclosed, hrow]
  cases tail with
  | nil => simp
  | cons p tail =>
      have hp : p ∈ pieces (textOf (p :: tail)) := by
        rw [hrow]
        exact List.mem_cons_self
      obtain ⟨c, hc, -, hstar⟩ := head?_of_literal hp (h.literal p List.mem_cons_self)
      rw [textOf_cons, List.head?_append, hc]
      simpa using hstar

/-! ### Tightening before the end -/

/-- Blanks are dropped as far as the first literal. -/
theorem dropBlankPieces_append (ps : List Piece) {tail : List Piece}
    (h : ∀ p ∈ tail, p.isPlain = false) :
    dropBlankPieces (ps ++ tail) = dropBlankPieces ps ++ tail := by
  fun_induction dropBlankPieces ps with
  | case1 c ps hc ih => rw [List.cons_append, dropBlankPieces, if_pos hc, ih]
  | case2 c ps hc => rw [List.cons_append, dropBlankPieces, if_neg hc]
  | case3 ps hps =>
      cases ps with
      | nil =>
          cases tail with
          | nil => rfl
          | cons p tail =>
              cases p with
              | plain c => cases h _ List.mem_cons_self
              | string s => rfl
              | comment s => rfl
      | cons p ps =>
          cases p with
          | plain c => exact absurd rfl (hps c ps)
          | string s => rfl
          | comment s => rfl

/-- Literals at the end stay as they are. -/
theorem tightenPieces_literals (around : List Char) (pending : Text) (ps : List Piece)
    {tail : List Piece} (h : ∀ p ∈ tail, p.isPlain = false) :
    tightenPieces around pending (ps ++ tail) = tightenPieces around pending ps ++ textOf tail := by
  fun_induction tightenPieces around pending ps with
  | case1 pending =>
      have htail := tightenPieces_append
        (fun q hq => Piece.isMark_of_literal (h q hq) around) pending []
      rw [List.append_nil, tightenPieces] at htail
      rw [List.nil_append, htail]
      simp
  | case2 pending c rest hc ih =>
      rw [List.cons_append, tightenPieces, if_pos hc, dropBlankPieces_append rest h, ih]
      simp
  | case3 pending c rest hc ih => rw [List.cons_append, tightenPieces, if_neg hc, ih]
  | case4 pending p rest hp ih =>
      rw [List.cons_append, tightenPieces, ih]
      exact hp

/-- What is open at the end of a line stays behind the rest, which is tightened
on its own. -/
theorem tighten_append {t u : Text} {tail : List Piece} (h : IsEnd tail)
    (hpieces : pieces t = pieces u ++ tail) (around : List Char) :
    tighten around t = tighten around u ++ textOf tail := by
  rw [tighten, hpieces, tightenPieces_literals around [] (pieces u) h.literal]
  rfl

namespace Tightened

variable {around : List Char} {t w : Text}

/-- Characters are only dropped. -/
theorem sublist (h : Tightened around t w) : w.Sublist t := by
  induction h with
  | whole hclosed hmarks => exact .refl _
  | mark hclosed hmarks hlast hgap hm hgap' hhead hv ih =>
      refine (List.Sublist.refl _).append (List.sublist_append_of_sublist_right ?_)
      exact (List.sublist_append_of_sublist_right ih).cons_cons _

/-- Only blanks are dropped. -/
theorem filter_eq (h : Tightened around t w) :
    w.filter (!isBlank ·) = t.filter (!isBlank ·) := by
  induction h with
  | whole hclosed hmarks => rfl
  | @mark u gap gap' v w m hclosed hmarks hlast hgap hm hgap' hhead hv ih =>
      have hbefore : gap.filter (!isBlank ·) = [] :=
        List.filter_eq_nil_iff.mpr fun c hc => by simp [blank_iff.mp hgap c hc]
      have hbehind : gap'.filter (!isBlank ·) = [] :=
        List.filter_eq_nil_iff.mpr fun c hc => by simp [isBlank_of_isAsciiBlank (hgap' c hc)]
      simp [List.filter_append, List.filter_cons, hbefore, hbehind, ih]

/-- The literals stay, since blanks are dropped outside of them only. -/
theorem literals_eq (ha : around ⊆ tightMarks) (h : Tightened around t w) :
    literals w = literals t := by
  unfold literals
  induction h with
  | whole hclosed hmarks => rfl
  | mark hclosed hmarks hlast hgap hm hgap' hhead hv ih =>
      rw [pieces_mark hclosed (ha hm), pieces_mark_gaps hclosed (ha hm) hgap hgap']
      simp [List.filter_append, filter_isPlain_map, ih]

end Tightened

/-! ### Next to the marks -/

/-- In a tight line no blank stands before a mark outside literals, and no
ASCII blank behind it. -/
theorem IsTight.apart {around : List Char} {t front back : Text} {m : Char}
    (h : IsTight around t) (hline : '\n' ∉ t) (hsplit : t = front ++ m :: back) (hm : m ∈ around)
    (hout : ¬ InLiteral t (size front)) :
    (∀ c ∈ front.getLast?, isBlank c = false) ∧ ∀ c ∈ back.head?, isAsciiBlank c = false := by
  have hmark : (Piece.plain m).isMark around = true := by simpa [Piece.isMark] using hm
  subst hsplit
  obtain ⟨before, after, hpieces, rfl, rfl⟩ := exists_pieces_of_outside hout
  have hclosed := closed_of_mem_dropLast hline
  unfold IsTight at h
  rw [hpieces] at h hclosed
  -- A mark outside of literals is a piece, and tightness speaks of its two neighbours.
  obtain ⟨-, hchain, hbefore⟩ := List.isChain_append.mp h
  obtain ⟨hbehind, -⟩ := List.isChain_cons.mp hchain
  refine ⟨?_, ?_⟩
  · rcases List.eq_nil_or_concat before with rfl | ⟨init, p, rfl⟩
    · simp
    · have hgap : p.isGap = false := (hbefore p (by simp) (.plain m) rfl).2 hmark
      have hp : p ∈ pieces (textOf (init.concat p) ++ m :: textOf after) := by
        rw [hpieces]
        simp
      have hpclosed : p.closed = true := by
        refine hclosed p ?_
        rw [List.dropLast_append_cons]
        simp
      obtain ⟨c, hc, hblank⟩ := getLast?_of_closed hp hpclosed hgap
      intro d hd
      have hne : p.text ≠ [] := by
        intro hnil
        rw [hnil] at hc
        cases hc
      rw [List.concat_eq_append, textOf_append, textOf_cons, textOf_nil, List.append_nil,
        List.getLast?_append_of_ne_nil _ hne, hc] at hd
      cases hd
      exact hblank
  · cases after with
    | nil => simp
    | cons q after =>
        intro c hc
        cases hq : q.isPlain with
        | true =>
            cases q with
            | plain d =>
                cases hc
                exact (hbehind (.plain c) rfl).1 hmark c rfl
            | string s => cases hq
            | comment s => cases hq
        | false =>
            have hmem : q ∈ pieces (textOf before ++ m :: textOf (q :: after)) := by
              rw [hpieces]
              simp
            obtain ⟨d, hd, hblank, -⟩ := head?_of_literal hmem hq
            rw [textOf_cons, List.head?_append, hd] at hc
            cases hc
            rw [← Bool.not_eq_true]
            intro hascii
            rw [isBlank_of_isAsciiBlank hascii] at hblank
            cases hblank

/-! ### Lines -/

/-- What tightening does to a line: it keeps all characters but blanks, and all
literals; no blank is left next to a mark; and a second time it does nothing. -/
theorem tighten_line {around : List Char} (ha : around ⊆ tightMarks) {t : Text} (hline : '\n' ∉ t) :
    (tighten around t).filter (!isBlank ·) = t.filter (!isBlank ·)
      ∧ literals (tighten around t) = literals t
      ∧ (∀ front m back, tighten around t = front ++ m :: back → m ∈ around →
        ¬ InLiteral (tighten around t) (size front) →
        (∀ c ∈ front.getLast?, isBlank c = false) ∧ ∀ c ∈ back.head?, isAsciiBlank c = false)
      ∧ tighten around (tighten around t) = tighten around t := by
  obtain ⟨u, tail, hend, hclosed, hpieces⟩ := exists_end hline
  have htight := tightened around hclosed
  have ht : t = u ++ textOf tail := by
    rw [← text_pieces t, hpieces, textOf_append, text_pieces]
  have hw : tighten around t = tighten around u ++ textOf tail := tighten_append hend hpieces around
  have hwPieces : pieces (tighten around t) = pieces (tighten around u) ++ tail := by
    rw [hw, hend.pieces_append (htight.closed ha)]
  -- The open literal at the end is neither a mark nor a blank, so it disturbs nothing.
  have hwTight : IsTight around (tighten around t) := by
    unfold IsTight
    rw [hwPieces]
    refine List.isChain_append.mpr ⟨htight.isTight ha, isChain_of_marks fun p hp =>
      Piece.isMark_of_literal (hend.literal p hp) around, fun p hp q hq => ⟨?_, ?_⟩⟩
    · rintro - c rfl
      cases hend.literal _ (List.mem_of_head? hq)
    · rw [Piece.isMark_of_literal (hend.literal q (List.mem_of_head? hq))]
      intro hmark
      cases hmark
  refine ⟨?_, ?_, fun front m back hsplit hm hout => ?_, ?_⟩
  · rw [hw, ht, List.filter_append, List.filter_append, htight.filter_eq]
  · have hliterals := htight.literals_eq ha
    unfold literals at hliterals ⊢
    rw [hwPieces, hpieces, List.filter_append, List.filter_append, hliterals]
  · refine hwTight.apart (fun hmem => hline ?_) hsplit hm hout
    have hsub : (tighten around t).Sublist t := by
      rw [hw, ht]
      exact htight.sublist.append (.refl _)
    exact hsub.subset hmem
  · rw [tighten_append hend hwPieces, tighten_tighten ha hclosed, hw]

/-- A line with marks in a string and in a comment that is open at its end. Behind
the first mark there is a wide blank. -/
def looseLine : Text := "a ,\u3000 b  > \"c , d\" , /* e ,  f".toList

/-- The comment that is open at the end stays too. -/
theorem tighten_line_loose :
    '\n' ∉ looseLine
      ∧ tighten tightMarks looseLine = "a,\u3000 b>\"c , d\",/* e ,  f".toList
      ∧ literals (tighten tightMarks looseLine) = literals looseLine
      ∧ literals looseLine = [.string "\"c , d\"".toList, .comment "/* e ,  f".toList]
      ∧ tighten tightMarks (tighten tightMarks looseLine) = tighten tightMarks looseLine := by
  have hline : '\n' ∉ looseLine := by decide
  obtain ⟨-, hliterals, -, hagain⟩ := tighten_line (List.Subset.refl tightMarks) hline
  exact ⟨hline, by decide +kernel, hliterals, by decide +kernel, hagain⟩

end Stylesheet
