import Stylesheet.Proofs.Spellings

/-!
# Tight texts

What `tighten` does to a text of closed literals. `Tightened` follows it
from one mark to the next: before the first mark the text stays as it is,
but for the blanks at its end; then comes the mark; the ASCII blanks
behind it are dropped, and the rest is tightened in the same way.

So strings, brackets and the ends of segments stay, and in the result no
blank stands next to a mark (`isTight_tighten`). A tight text stays as it
is (`IsTight.tighten_eq`), hence tightening twice is tightening once.
-/

set_option autoImplicit false

namespace Stylesheet

open Text

/-- The characters around which the printers drop blanks. -/
def tightMarks : List Char := [',', '>']

/-- Whether a piece is one of the marks. -/
def Piece.isMark (around : List Char) : Piece → Bool
  | .plain c => around.elem c
  | _ => false

/-! ### From mark to mark -/

/-- How a text is tightened: up to the first mark it stays, blanks around the
mark go, and the rest is tightened. Before a mark all kinds of blanks are
dropped, and behind it the ASCII ones only, as the printers do. -/
inductive Tightened (around : List Char) : Text → Text → Prop where
  | whole {t : Text} (hclosed : ∀ p ∈ pieces t, p.closed = true)
      (hmarks : ∀ p ∈ pieces t, p.isMark around = false) : Tightened around t t
  | mark {u gap gap' v w : Text} {m : Char} (hclosed : ∀ p ∈ pieces u, p.closed = true)
      (hmarks : ∀ p ∈ pieces u, p.isMark around = false)
      (hlast : ∀ c ∈ u.getLast?, isBlank c = false) (hgap : blank gap = true) (hm : m ∈ around)
      (hgap' : ∀ c ∈ gap', isAsciiBlank c = true) (hhead : ∀ c ∈ v.head?, isAsciiBlank c = false)
      (hv : Tightened around v w) :
      Tightened around (u ++ (gap ++ m :: (gap' ++ v))) (u ++ m :: w)

/-- A row of pieces has no mark, or it has a first one. -/
theorem exists_first_mark (around : List Char) (ps : List Piece) :
    (∀ p ∈ ps, p.isMark around = false) ∨ ∃ qs m rest, ps = qs ++ .plain m :: rest ∧ m ∈ around
      ∧ ∀ q ∈ qs, q.isMark around = false := by
  induction ps with
  | nil => exact .inl (by simp)
  | cons p ps ih =>
      cases hp : p.isMark around with
      | true =>
          cases p with
          | plain m => exact .inr ⟨[], m, ps, rfl, by simpa [Piece.isMark] using hp, by simp⟩
          | string t => cases hp
          | comment t => cases hp
      | false =>
          rcases ih with hall | ⟨qs, m, rest, rfl, hm, hqs⟩
          · exact .inl (List.forall_mem_cons.mpr ⟨hp, hall⟩)
          · exact .inr ⟨p :: qs, m, rest, rfl, hm, List.forall_mem_cons.mpr ⟨hp, hqs⟩⟩

/-- Pieces that are no marks wait for the next one. -/
theorem tightenPieces_append {around : List Char} {qs : List Piece}
    (hqs : ∀ q ∈ qs, q.isMark around = false) (pending : Text) (rest : List Piece) :
    tightenPieces around pending (qs ++ rest)
      = tightenPieces around ((textOf qs).reverse ++ pending) rest := by
  induction qs generalizing pending with
  | nil => rfl
  | cons q qs ih =>
      obtain ⟨hq, hqs⟩ := List.forall_mem_cons.mp hqs
      have hstep : tightenPieces around pending (q :: (qs ++ rest))
          = tightenPieces around (q.text.reverse ++ pending) (qs ++ rest) := by
        cases q with
        | plain c =>
            have hc : c ∉ around := by simpa [Piece.isMark] using hq
            rw [tightenPieces, if_neg hc]
            rfl
        | string t => rw [tightenPieces]; simp
        | comment t => rw [tightenPieces]; simp
      rw [List.cons_append, hstep, ih hqs, textOf_cons, List.reverse_append, List.append_assoc]

/-- Dropping blank pieces in front is dropping blanks in front of the text. A
literal begins with no blank, so none is cut open. -/
theorem pieces_dropWhile (t : Text) :
    dropBlankPieces (pieces t) = pieces (t.dropWhile isAsciiBlank) := by
  induction t with
  | nil => simp [pieces, dropBlankPieces]
  | cons c r ih =>
      cases hc : isAsciiBlank c with
      | true =>
          have hblank := isBlank_of_isAsciiBlank hc
          have hplain := pieces_cons (isQuote_eq_false hblank)
            (ne_of_isBlank hblank (d := '/') (by decide)) r
          rw [List.dropWhile_cons_of_pos hc, hplain, dropBlankPieces, if_pos hc, ih]
      | false =>
          rw [List.dropWhile_cons_of_neg (by simp [hc])]
          -- A literal does not begin with a blank, so nothing is dropped from it.
          cases htake : Literal.take? (c :: r) with
          | none =>
              rw [pieces_of_plain htake, dropBlankPieces]
              simp [hc]
          | some found =>
              rw [pieces_of_take? htake]
              rcases Literal.take?_cases htake with ⟨_, _, _, _, heq, _⟩ | ⟨_, _, heq, _⟩
              · rw [heq, dropBlankPieces]
                simp
              · rw [heq, dropBlankPieces]
                simp

/-- Without marks nothing is tightened. -/
theorem tighten_of_marks {around : List Char} {t : Text}
    (hmarks : ∀ p ∈ pieces t, p.isMark around = false) : tighten around t = t := by
  have happend := tightenPieces_append hmarks [] []
  rw [List.append_nil, List.append_nil, text_pieces, tightenPieces, List.reverse_reverse] at happend
  exact happend

/-- One mark of a text: what stands before it is trimmed at its end, and what
stands behind it is tightened without the blanks in front. -/
theorem tighten_of_split {around : List Char} {t v : Text} {qs : List Piece} {m : Char}
    (hsplit : pieces t = qs ++ .plain m :: pieces v) (hqs : ∀ q ∈ qs, q.isMark around = false)
    (hm : m ∈ around) :
    tighten around t = trimEnd (textOf qs) ++ m :: tighten around (v.dropWhile isAsciiBlank) := by
  rw [tighten, hsplit, tightenPieces_append hqs, tightenPieces, if_pos hm, List.append_nil,
    List.reverse_reverse, tighten, ← pieces_dropWhile]

/-- Tightening does what `Tightened` says. The literals must be closed, because
an open one would take in a mark behind it once blanks in between are gone. -/
theorem tightened (around : List Char) {t : Text} (hclosed : ∀ p ∈ pieces t, p.closed = true) :
    Tightened around t (tighten around t) := by
  induction hn : t.length using Nat.strongRecOn generalizing t with
  | ind n ih =>
      -- By strong induction on the length: the text is divided at its first mark, and what
      -- follows the blanks behind it is shorter.
      rcases exists_first_mark around (pieces t) with hmarks | ⟨qs, m, rest, hsplit, hm, hqs⟩
      · rw [tighten_of_marks hmarks]
        exact .whole hclosed hmarks
      · have hrow := isRow_pieces t
        rw [hsplit] at hrow hclosed
        obtain ⟨hfront, -, hrest⟩ := by
          simpa only [List.forall_mem_append, List.forall_mem_cons] using hclosed
        have hu : pieces (textOf qs) = qs := hrow.front
        obtain ⟨v, rfl⟩ : ∃ v, rest = pieces v := ⟨textOf rest, hrow.behind.tail.symm⟩
        obtain ⟨gap, hgapEq, hgap, hpieces, hlast⟩ := exists_trimEnd (t := textOf qs) (by rwa [hu])
        have hfrontPieces : ∀ p ∈ pieces (trimEnd (textOf qs)), p ∈ qs := by
          intro p hp
          rw [← hu, hpieces]
          exact List.mem_append_left _ hp
        have hgap' : ∀ c ∈ v.takeWhile isAsciiBlank, isAsciiBlank c = true :=
          fun c hc => List.all_eq_true.mp List.all_takeWhile c hc
        have hbehind : v.takeWhile isAsciiBlank ++ v.dropWhile isAsciiBlank = v :=
          List.takeWhile_append_dropWhile
        have ht : t = trimEnd (textOf qs)
            ++ (gap ++ m :: (v.takeWhile isAsciiBlank ++ v.dropWhile isAsciiBlank)) := by
          have htext := text_pieces t
          rw [hsplit, textOf_append, textOf_cons, text_pieces] at htext
          rw [hbehind, ← List.append_assoc, ← hgapEq]
          exact htext.symm
        have hclosed' : ∀ p ∈ pieces (v.dropWhile isAsciiBlank), p.closed = true := by
          intro p hp
          refine hrest p ?_
          rw [← hbehind,
            pieces_gap (blank_iff.mpr fun c hc => isBlank_of_isAsciiBlank (hgap' c hc))]
          exact List.mem_append_right _ hp
        have hshorter : (v.dropWhile isAsciiBlank).length < n := by
          rw [← hn, ht]
          simp only [List.length_append, List.length_cons]
          omega
        rw [tighten_of_split hsplit hqs hm, ht]
        refine .mark (fun p hp => hfront p (hfrontPieces p hp)) (fun p hp => hqs p (hfrontPieces p hp))
          hlast hgap hm hgap' ?_ (ih _ hshorter hclosed' rfl)
        intro c hc
        have hnot := List.head?_dropWhile_not isAsciiBlank v
        rwa [Option.mem_def.mp hc] at hnot

/-! ### What stays -/

section

variable {u gap gap' v : Text} {m : Char} (hclosed : ∀ p ∈ pieces u, p.closed = true)
  (hm : m ∈ tightMarks)

include hm

/-- The marks are no characters of literals and no blanks. -/
theorem plain_of_mem_tightMarks : isQuote m = false ∧ m ≠ '/' ∧ m ≠ '*' ∧ isBlank m = false := by
  rcases List.mem_pair.mp hm with rfl | rfl
  · decide
  · decide

include hclosed

/-- A mark between two texts is a piece, and the pieces of both stay what they
are. -/
theorem pieces_mark : pieces (u ++ m :: v) = pieces u ++ .plain m :: pieces v := by
  obtain ⟨hquote, hslash, hstar, -⟩ := plain_of_mem_tightMarks hm
  exact pieces_append_cons hclosed hquote hslash hstar v

/-- The pieces around a mark between blanks. -/
theorem pieces_mark_gaps (hgap : blank gap = true) (hgap' : ∀ c ∈ gap', isAsciiBlank c = true) :
    pieces (u ++ (gap ++ m :: (gap' ++ v)))
      = pieces u ++ (gap.map .plain ++ .plain m :: (gap'.map .plain ++ pieces v)) := by
  obtain ⟨hquote, hslash, hstar, -⟩ := plain_of_mem_tightMarks hm
  have hblank : blank gap' = true := blank_iff.mpr fun c hc => isBlank_of_isAsciiBlank (hgap' c hc)
  have hhead : (gap ++ m :: (gap' ++ v)).head? ≠ some '*' := by
    cases gap with
    | nil => simpa using hstar
    | cons c gap =>
        have hc := blank_iff.mp hgap c List.mem_cons_self
        simpa using ne_of_isBlank hc (d := '*') (by decide)
  rw [pieces_append_of_head hclosed hhead, pieces_gap hgap, pieces_cons hquote hslash,
    pieces_gap hblank]

end

/-- Blanks leave the count of brackets as it is. -/
theorem passed_gap {gap : Text} (hgap : blank gap = true) (nested : Bool) (d : Nat) :
    passed nested d (gap.map .plain) = some d := by
  refine passed_of_blank ?_
  rwa [textOf_map_plain]

/-- The marks open and close no brackets. -/
theorem passed_mark {m : Char} (hm : m ∈ tightMarks) (nested : Bool) (d : Nat) (ps : List Piece) :
    passed nested d (.plain m :: ps) = passed nested d ps := by
  have hpiece : (Piece.plain m).passed nested d = some d := by
    rcases List.mem_pair.mp hm with rfl | rfl
    · simp [Piece.passed, endsSegment, Node.bracketDepth]
    · simp [Piece.passed, endsSegment, Node.bracketDepth]
  rw [passed, List.foldlM_cons, hpiece]
  rfl

namespace Tightened

variable {around : List Char} {t w : Text} (ha : around ⊆ tightMarks)

include ha

/-- Tightening keeps literals closed. -/
theorem closed (h : Tightened around t w) : ∀ p ∈ pieces w, p.closed = true := by
  induction h with
  | whole hclosed hmarks => exact hclosed
  | mark hclosed hmarks hlast hgap hm hgap' hhead hv ih =>
      rw [pieces_mark hclosed (ha hm), List.forall_mem_append, List.forall_mem_cons]
      exact ⟨hclosed, rfl, ih⟩

/-- Tightening keeps strings: the blanks it drops stand outside of them. -/
theorem strings_eq (h : Tightened around t w) : strings w = strings t := by
  induction h with
  | whole hclosed hmarks => rfl
  | mark hclosed hmarks hlast hgap hm hgap' hhead hv ih =>
      simp only [strings] at ih ⊢
      rw [pieces_mark hclosed (ha hm), pieces_mark_gaps hclosed (ha hm) hgap hgap']
      simp [stringsOf_append, ih]

/-- Tightening keeps the count of brackets, from any number of open ones on. -/
theorem passed_eq (h : Tightened around t w) (nested : Bool) (d : Nat) :
    passed nested d (pieces w) = passed nested d (pieces t) := by
  induction h generalizing d with
  | whole hclosed hmarks => rfl
  | mark hclosed hmarks hlast hgap hm hgap' hhead hv ih =>
      have hblank := blank_iff.mpr fun c hc => isBlank_of_isAsciiBlank (hgap' c hc)
      rw [pieces_mark hclosed (ha hm), pieces_mark_gaps hclosed (ha hm) hgap hgap']
      simp only [passed_append, passed_mark (ha hm), passed_gap hgap, passed_gap hblank, ih,
        Option.bind_some]

/-- Tightening keeps a text collapsed. Where a single space is dropped a mark
stands, so none is left at an end. -/
theorem isCollapsed (h : Tightened around t w) (ht : IsCollapsed t) : IsCollapsed w := by
  induction h with
  | whole hclosed hmarks => exact ht
  | @mark u gap gap' v w m hclosed hmarks hlast hgap hm hgap' hhead hv ih =>
      obtain ⟨-, -, -, hblank⟩ := plain_of_mem_tightMarks (ha hm)
      have hu : IsCollapsed u := by
        have hall : IsCollapsed ([] ++ (u ++ (gap ++ m :: (gap' ++ v)))) := ht
        refine hall.part ⟨fun c hc => ht.head c ?_, hlast⟩
        rw [List.head?_append, Option.mem_def.mp hc]
        rfl
      have hv' : IsCollapsed v := by
        have hsplit : u ++ (gap ++ m :: (gap' ++ v)) = (u ++ (gap ++ m :: gap')) ++ (v ++ []) := by simp
        rw [hsplit] at ht
        refine ht.part ⟨fun c hc => ?_, fun c hc => ht.last c ?_⟩
        · -- The only blank of a collapsed text is the space, which would have been dropped.
          rw [← Bool.not_eq_true]
          intro hc'
          obtain rfl := ht.space c (by simp [List.mem_of_mem_head? hc]) hc'
          cases hhead _ hc
        · rw [List.append_nil, List.getLast?_append, Option.mem_def.mp hc]
          rfl
      exact hu.append ((IsCollapsed.of_not_blank (t := [m]) (by simpa using hblank)).append (ih hv'))

omit ha in
/-- The first character stays, unless there are blanks before a mark. -/
theorem head (h : Tightened around t w) : ∀ c ∈ w.head?, t.head? = some c ∨ c ∈ around := by
  intro c hc
  cases h with
  | whole hclosed hmarks => exact .inl hc
  | @mark u gap gap' v w m hclosed hmarks hlast hgap hm hgap' hhead hv =>
      cases u with
      | nil =>
          cases hc
          exact .inr hm
      | cons d u => exact .inl hc

end Tightened

/-! ### Tight texts -/

/-- Whether two pieces may stand one behind the other in a tight text. -/
def Piece.fits (around : List Char) (p q : Piece) : Prop :=
  (p.isMark around = true → ∀ c, q = .plain c → isAsciiBlank c = false)
    ∧ (q.isMark around = true → p.isGap = false)

/-- No blank that `tighten` would drop stands in the text. -/
def IsTight (around : List Char) (t : Text) : Prop := (pieces t).IsChain (Piece.fits around)

/-- A text begins with its first piece. -/
theorem head?_of_pieces {t : Text} {c : Char} (h : (pieces t).head? = some (.plain c)) :
    t.head? = some c := by
  obtain ⟨ps, hps⟩ := List.head?_eq_some_iff.mp h
  rw [← text_pieces t, hps]
  rfl

/-- A text ends with its last piece. -/
theorem getLast?_of_pieces {t : Text} {c : Char} (h : (pieces t).getLast? = some (.plain c)) :
    t.getLast? = some c := by
  obtain ⟨ps, hps⟩ := List.getLast?_eq_some_iff.mp h
  rw [← text_pieces t, hps, textOf_append]
  exact List.getLast?_concat

/-- Without marks any two pieces fit. -/
theorem isChain_of_marks {around : List Char} {ps : List Piece}
    (h : ∀ p ∈ ps, p.isMark around = false) : ps.IsChain (Piece.fits around) := by
  refine List.isChain_iff_forall_rel_of_append_cons_cons.mpr fun p q front back heq => ⟨?_, ?_⟩
  · rw [h p (by rw [heq]; simp)]
    exact fun hmark => nomatch hmark
  · rw [h q (by rw [heq]; simp)]
    exact fun hmark => nomatch hmark

/-- A tightened text is tight. This is where the marks have to be known: one
that begins a literal would not be a piece any more. -/
theorem Tightened.isTight {around : List Char} (ha : around ⊆ tightMarks) {t w : Text}
    (h : Tightened around t w) : IsTight around w := by
  unfold IsTight
  induction h with
  | whole hclosed hmarks => exact isChain_of_marks hmarks
  | @mark u gap gap' v w m hclosed hmarks hlast hgap hm hgap' hhead hv ih =>
      obtain ⟨-, -, -, hblank⟩ := plain_of_mem_tightMarks (ha hm)
      rw [pieces_mark hclosed (ha hm)]
      refine List.isChain_append.mpr ⟨isChain_of_marks hmarks, List.isChain_cons.mpr ⟨?_, ih⟩, ?_⟩
      · refine fun q hq => ⟨fun _ c hc => ?_, fun _ => hblank⟩
        -- The rest begins as it did before, or with a mark.
        subst hc
        rw [← Bool.not_eq_true]
        intro hascii
        rcases hv.head c (head?_of_pieces hq) with hkept | hmark
        · rw [hhead c hkept] at hascii
          cases hascii
        · obtain ⟨-, -, -, hc⟩ := plain_of_mem_tightMarks (ha hmark)
          rw [isBlank_of_isAsciiBlank hascii] at hc
          cases hc
      · refine fun p hp q hq => ⟨fun hmark => ?_, fun _ => ?_⟩
        · rw [hmarks p (List.mem_of_getLast? hp)] at hmark
          cases hmark
        · cases p with
          | plain c => exact hlast c (getLast?_of_pieces hp)
          | string s => rfl
          | comment s => rfl

/-- A tight text has no blanks that could be dropped. -/
theorem Tightened.eq {around : List Char} (ha : around ⊆ tightMarks) {t w : Text}
    (h : Tightened around t w) (ht : IsTight around t) : w = t := by
  unfold IsTight at ht
  induction h with
  | whole hclosed hmarks => rfl
  | @mark u gap gap' v w m hclosed hmarks hlast hgap hm hgap' hhead hv ih =>
      have hmark : (Piece.plain m).isMark around = true := by simpa [Piece.isMark] using hm
      rw [pieces_mark_gaps hclosed (ha hm) hgap hgap'] at ht
      obtain ⟨-, hbehind, -⟩ := List.isChain_append.mp ht
      obtain ⟨-, hbehind, hbefore⟩ := List.isChain_append.mp hbehind
      obtain ⟨hnext, hbehind⟩ := List.isChain_cons.mp hbehind
      obtain ⟨-, hv', -⟩ := List.isChain_append.mp hbehind
      -- The gaps at a mark are empty, since its neighbours are not blank.
      obtain rfl : gap = [] := by
        rcases List.eq_nil_or_concat gap with rfl | ⟨init, c, rfl⟩
        · rfl
        · have hc := (hbefore (.plain c) (by simp) (.plain m) rfl).2 hmark
          have hc' := blank_iff.mp hgap c (by simp)
          rw [Piece.isGap, hc'] at hc
          cases hc
      obtain rfl : gap' = [] := by
        cases gap' with
        | nil => rfl
        | cons c gap' =>
            have hc := (hnext (.plain c) rfl).1 hmark c rfl
            rw [hgap' c List.mem_cons_self] at hc
            cases hc
      rw [ih hv']
      rfl

/-! ### Tightening -/

section

variable {around : List Char} (ha : around ⊆ tightMarks) {t : Text}
  (hclosed : ∀ p ∈ pieces t, p.closed = true)

include ha hclosed

/-- Tightening makes a text tight. -/
theorem isTight_tighten : IsTight around (tighten around t) := (tightened around hclosed).isTight ha

/-- Tightening leaves a tight text alone. -/
theorem IsTight.tighten_eq (h : IsTight around t) : tighten around t = t :=
  (tightened around hclosed).eq ha h

/-- Tightening keeps the literals of a text closed. -/
theorem closed_tighten : ∀ p ∈ pieces (tighten around t), p.closed = true :=
  (tightened around hclosed).closed ha

/-- Tightening keeps the strings of a text. -/
theorem strings_tighten : strings (tighten around t) = strings t :=
  (tightened around hclosed).strings_eq ha

/-- Tightening keeps a text collapsed, if it was. -/
theorem isCollapsed_tighten (ht : IsCollapsed t) : IsCollapsed (tighten around t) :=
  (tightened around hclosed).isCollapsed ha ht

/-- Tightening twice is tightening once. -/
theorem tighten_tighten : tighten around (tighten around t) = tighten around t :=
  (isTight_tighten ha hclosed).tighten_eq ha (closed_tighten ha hclosed)

end

/-- A scan of the tightened text ends with as many brackets open. That it ends
outside of literals says that these are closed. -/
theorem endsAt_tighten {around : List Char} (ha : around ⊆ tightMarks) {t : Text} {nested : Bool}
    {d depth : Nat} (h : Scan.EndsAt nested ⟨.plain, d⟩ t depth) :
    Scan.EndsAt nested ⟨.plain, d⟩ (tighten around t) depth := by
  obtain ⟨hclosed, hpassed⟩ := (Scan.endsAt_iff t).mp h
  refine (Scan.endsAt_iff _).mpr ⟨closed_tighten ha hclosed, ?_⟩
  rw [← hpassed]
  exact (tightened around hclosed).passed_eq ha nested d

/-- A piece of solid characters is no mark, and no blank that could be dropped. -/
theorem not_mark_of_solid {p : Piece} (h : RowRespelled.solid Value.isSolid p = true) :
    p.isMark [','] = false ∧ p.isGap = false := by
  cases p with
  | plain c =>
      simp only [RowRespelled.solid, Value.isSolid, Bool.and_eq_true, Bool.not_eq_true',
        bne_iff_ne] at h
      exact ⟨by simpa [Piece.isMark] using h.2, h.1⟩
  | string s => exact ⟨rfl, rfl⟩
  | comment s => exact ⟨rfl, rfl⟩

/-- A respelling with solid characters keeps a text tight. -/
theorem IsRespelling.isTight_respell {f : Respeller} (hf : IsRespelling Value.isSolid f) {t : Text}
    (hclosed : ∀ p ∈ pieces t, p.closed = true) (ht : IsTight [','] t) :
    IsTight [','] (respell f t) := by
  refine (hf.rowRespelled_pieces hclosed []).isChain ?_ ht
  rintro p q (hp | hq)
  · obtain ⟨hmark, hgap⟩ := not_mark_of_solid hp
    refine ⟨fun hmark' => ?_, fun _ => hgap⟩
    rw [hmark] at hmark'
    cases hmark'
  · obtain ⟨hmark, hgap⟩ := not_mark_of_solid hq
    refine ⟨fun _ c hc => ?_, fun hmark' => ?_⟩
    · subst hc
      rw [← Bool.not_eq_true]
      intro hascii
      rw [Piece.isGap, isBlank_of_isAsciiBlank hascii] at hgap
      cases hgap
    · rw [hmark] at hmark'
      cases hmark'

end Stylesheet
