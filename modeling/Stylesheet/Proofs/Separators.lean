import Mathlib.Algebra.GroupWithZero.Nat
import Stylesheet.Proofs.Derivation
import Stylesheet.Proofs.Offsets
import Stylesheet.TopLevel

/-!
# Texts are cut at every separator at the top level

`splitTop` goes once over the pieces of a text, with a count of brackets that
never falls below zero. `splitTop_complete` says what the parts are without
the count. Joined by the separator they are the text; each of them, cut again,
is one part; and there is one part more than there are places at which a
separator stands at the top level (`SeparatesAt`). Such a place is outside
literals, and no stretch of the text before it opens more brackets than it
closes. Brackets of the three kinds are counted together and need not be
balanced. A bracket is never a separator.

A part is read without what stood around it. It is read as the same pieces,
because a stretch of a row of pieces is a row (`IsRow.of_isInfix`), also where a
string ends with its line and the line feed is the separator.
-/

set_option autoImplicit false

namespace Stylesheet

/-! ### Places at the top level -/

/-- The characters that open a bracket. -/
def openingBrackets : List Char := ['(', '[', '{']

/-- The characters that close a bracket. -/
def closingBrackets : List Char := [')', ']', '}']

/-- How often one of some characters stands outside literals between two
positions. -/
def countOutside (t : Text) (cs : List Char) (start stop : Nat) : Nat :=
  (cs.map fun c => ((Finset.Ico start stop).filter (StandsOutside t c)).card).sum

/-- No bracket is open at a position: no stretch before it opens more
brackets than it closes. -/
def OutsideBrackets (t : Text) (offset : Nat) : Prop :=
  ∀ start ≤ offset,
    countOutside t openingBrackets start offset ≤ countOutside t closingBrackets start offset

instance (t : Text) (offset : Nat) : Decidable (OutsideBrackets t offset) :=
  inferInstanceAs (Decidable (∀ start ≤ offset, _))

/-- A separator stands at a position outside literals and brackets, and is no
bracket itself. -/
structure SeparatesAt (separator : Char) (t : Text) (offset : Nat) : Prop where
  stands : StandsOutside t separator offset
  outside : OutsideBrackets t offset
  noBracket : separator ∉ openingBrackets ++ closingBrackets

instance (separator : Char) (t : Text) (offset : Nat) :
    Decidable (SeparatesAt separator t offset) :=
  decidable_of_iff (StandsOutside t separator offset ∧ OutsideBrackets t offset
      ∧ separator ∉ openingBrackets ++ closingBrackets)
    ⟨fun h => ⟨h.1, h.2.1, h.2.2⟩, fun h => ⟨h.1, h.2, h.3⟩⟩

/-! ### Counting brackets -/

/-- How many brackets are open behind a piece, if `depth` are open before
it. -/
def Piece.topDepth (depth : Nat) : Piece → Nat
  | .plain c =>
    if c ∈ openingBrackets then depth + 1
    else if c ∈ closingBrackets then depth - 1
    else depth
  | _ => depth

/-- How many brackets are open behind some pieces. -/
def topDepth (depth : Nat) (ps : List Piece) : Nat := ps.foldl Piece.topDepth depth

/-- How many of the pieces are one of some characters. -/
def countPlain (cs : List Char) (ps : List Piece) : Nat :=
  (cs.map fun c => ps.count (.plain c)).sum

/-- There are none among no pieces. -/
theorem countPlain_nil (cs : List Char) : countPlain cs [] = 0 := by
  simp [countPlain]

/-- The pieces of two rows. -/
theorem countPlain_append (cs : List Char) (ps qs : List Piece) :
    countPlain cs (ps ++ qs) = countPlain cs ps + countPlain cs qs := by
  induction cs with
  | nil => rfl
  | cons c cs ih =>
      simp only [countPlain, List.map_cons, List.sum_cons, List.count_append] at ih ⊢
      omega

/-- One piece changes the count of brackets by what it is. -/
theorem Piece.topDepth_add (depth : Nat) (p : Piece) :
    p.topDepth depth = depth + countPlain openingBrackets [p] - countPlain closingBrackets [p] := by
  cases p with
  | plain c =>
      by_cases hopen : c ∈ openingBrackets
      · rw [Piece.topDepth, if_pos hopen]
        simp only [openingBrackets, List.mem_cons, List.not_mem_nil, or_false] at hopen
        rcases hopen with rfl | rfl | rfl <;> rfl
      · by_cases hclose : c ∈ closingBrackets
        · rw [Piece.topDepth, if_neg hopen, if_pos hclose]
          simp only [closingBrackets, List.mem_cons, List.not_mem_nil, or_false] at hclose
          rcases hclose with rfl | rfl | rfl <;> rfl
        · rw [Piece.topDepth, if_neg hopen, if_neg hclose]
          simp only [openingBrackets, closingBrackets, List.mem_cons, List.not_mem_nil, or_false,
            not_or] at hopen hclose
          simp [countPlain, openingBrackets, closingBrackets, List.count_singleton, hopen, hclose]
  | string t => rfl
  | comment t => rfl

/-- The count of brackets is what the stretches at the end have opened and
not closed. -/
theorem topDepth_le_iff (ps : List Piece) (depth : Nat) :
    topDepth 0 ps ≤ depth ↔ ∀ back, back <:+ ps →
      countPlain openingBrackets back ≤ countPlain closingBrackets back + depth := by
  induction ps using List.reverseRecOn generalizing depth with
  | nil =>
      constructor
      · intro _ back hback
        rw [List.suffix_nil.mp hback]
        exact Nat.zero_le _
      · intro _
        exact Nat.zero_le _
  | append_singleton ps p ih =>
      have hstep : topDepth 0 (ps ++ [p]) = p.topDepth (topDepth 0 ps) := by
        simp [topDepth]
      have hsuffix : (∀ back, back <:+ ps ++ [p] →
            countPlain openingBrackets back ≤ countPlain closingBrackets back + depth)
          ↔ ∀ back, back <:+ ps → countPlain openingBrackets back + countPlain openingBrackets [p]
              ≤ countPlain closingBrackets back + countPlain closingBrackets [p] + depth := by
        simp only [List.suffix_concat_iff]
        constructor
        · intro h back hback
          rw [← countPlain_append, ← countPlain_append]
          exact h _ (.inr ⟨back, rfl, hback⟩)
        · rintro h _ (rfl | ⟨back, rfl, hback⟩)
          · exact Nat.zero_le _
          · rw [countPlain_append, countPlain_append]
            exact h back hback
      rw [hstep, p.topDepth_add, hsuffix]
      -- What the last piece opens has to fit in, or else the empty stretch before it
      -- shows that it does not.
      by_cases hfits : countPlain openingBrackets [p] ≤ countPlain closingBrackets [p] + depth
      · have hps := ih (countPlain closingBrackets [p] + depth - countPlain openingBrackets [p])
        constructor
        · intro h back hback
          have := hps.mp (by omega) back hback
          omega
        · intro h
          have := hps.mpr fun back hback => by
            have := h back hback
            omega
          omega
      · constructor
        · intro h
          omega
        · intro h
          have := h [] List.nil_suffix
          rw [countPlain_nil, countPlain_nil] at this
          omega

/-! ### Cutting a row -/

/-- One step of cutting: a part ends at a separator, and every other piece
belongs to the part that is open. -/
theorem splitTopPieces_step (separator : Char) (depth : Nat) (p : Piece) (ps : List Piece) :
    splitTopPieces separator depth (p :: ps)
      = if p = .plain separator ∧ depth = 0 ∧ separator ∉ openingBrackets ++ closingBrackets then
          [] :: splitTopPieces separator 0 ps
        else extendFirst p.text (splitTopPieces separator (p.topDepth depth) ps) := by
  cases p with
  | plain c =>
      have hopening : (c = '(' ∨ c = '[' ∨ c = '{') ↔ c ∈ openingBrackets := by
        simp [openingBrackets]
      have hclosing : (c = ')' ∨ c = ']' ∨ c = '}') ↔ c ∈ closingBrackets := by
        simp [closingBrackets]
      rw [splitTopPieces, Piece.topDepth, Piece.text]
      simp only [hopening, hclosing, Piece.plain.injEq, List.mem_append, not_or]
      -- Brackets are looked at before the separator, so a bracket does not separate.
      by_cases hopen : c ∈ openingBrackets
      · rw [if_pos hopen, if_pos hopen, if_neg]
        rintro ⟨rfl, -, hno, -⟩
        exact hno hopen
      · by_cases hclose : c ∈ closingBrackets
        · rw [if_neg hopen, if_neg hopen, if_pos hclose, if_pos hclose, if_neg]
          rintro ⟨rfl, -, -, hno⟩
          exact hno hclose
        · rw [if_neg hopen, if_neg hopen, if_neg hclose, if_neg hclose]
          by_cases hsep : c = separator ∧ depth = 0
          · obtain ⟨rfl, rfl⟩ := hsep
            rw [if_pos ⟨rfl, rfl⟩, if_pos ⟨rfl, rfl, hopen, hclose⟩]
          · rw [if_neg hsep, if_neg fun h => hsep ⟨h.1, h.2.1⟩]
  | string t => rfl
  | comment t => rfl

/-- There is one part at least. -/
theorem splitTopPieces_ne_nil (separator : Char) (depth : Nat) (ps : List Piece) :
    splitTopPieces separator depth ps ≠ [] := by
  cases ps with
  | nil => simp [splitTopPieces]
  | cons p ps =>
      rw [splitTopPieces_step]
      split
      · simp
      · cases splitTopPieces separator (p.topDepth depth) ps <;> simp [extendFirst]

/-- Text in front of the first part is text in front of all. -/
theorem joinWith_extendFirst (separator t : Text) (parts : List Text) :
    Text.joinWith separator (extendFirst t parts) = t ++ Text.joinWith separator parts := by
  cases parts with
  | nil => simp [extendFirst, Text.joinWith, List.intercalate]
  | cons part parts =>
      cases parts <;> simp [extendFirst, Text.joinWith, List.intercalate]

/-- The parts, joined again, are the text of the pieces. -/
theorem joinWith_splitTopPieces (separator : Char) (depth : Nat) (ps : List Piece) :
    Text.joinWith [separator] (splitTopPieces separator depth ps) = textOf ps := by
  induction ps generalizing depth with
  | nil => rfl
  | cons p ps ih =>
      rw [splitTopPieces_step, textOf_cons]
      split
      · rename_i hsep
        have hne := splitTopPieces_ne_nil separator 0 ps
        have hjoin := ih 0
        cases hparts : splitTopPieces separator 0 ps with
        | nil => exact absurd hparts hne
        | cons part parts =>
            rw [hparts] at hjoin
            rw [hsep.1, Piece.text, ← hjoin]
            simp [Text.joinWith, List.intercalate]
      · rw [joinWith_extendFirst, ih]

/-- The row is made of the parts with separators between them, and each of
them is one part. The first one is inside `depth` brackets that were opened before
it. -/
theorem exists_stretches (separator : Char) (depth : Nat) (ps : List Piece) :
    ∃ (first : List Piece) (others : List (List Piece)),
      splitTopPieces separator depth ps = textOf first :: others.map textOf
      ∧ ps = first ++ others.flatMap (.plain separator :: ·)
      ∧ splitTopPieces separator depth first = [textOf first]
      ∧ ∀ part ∈ others, splitTopPieces separator 0 part = [textOf part] := by
  induction ps generalizing depth with
  | nil => exact ⟨[], [], rfl, rfl, rfl, by simp⟩
  | cons p ps ih =>
      rw [splitTopPieces_step]
      split
      · -- The part that was open ends; the first part behind the separator is one of the others.
        rename_i hsep
        obtain ⟨first, others, hsplit, hrow, hfirst, hothers⟩ := ih 0
        refine ⟨[], first :: others, by rw [hsplit]; rfl, ?_, rfl,
          List.forall_mem_cons.mpr ⟨hfirst, hothers⟩⟩
        conv_lhs => rw [hsep.1, hrow]
        rfl
      · rename_i hsep
        obtain ⟨first, others, hsplit, hrow, hfirst, hothers⟩ := ih (p.topDepth depth)
        refine ⟨p :: first, others, by rw [hsplit, textOf_cons]; rfl, ?_, ?_, hothers⟩
        · conv_lhs => rw [hrow]
          rfl
        · rw [splitTopPieces_step, if_neg hsep, hfirst, textOf_cons]
          rfl

/-- The pieces of a text are those of its parts with separators between them,
and each part, cut again, is one part. -/
theorem exists_pieces_splitTop (separator : Char) (t : Text) :
    ∃ first others, splitTop separator t = first :: others
      ∧ pieces t = pieces first ++ others.flatMap (fun part => .plain separator :: pieces part)
      ∧ ∀ part ∈ first :: others, splitTop separator part = [part] := by
  obtain ⟨first, others, hsplit, hpieces, hfirst, hothers⟩ :=
    exists_stretches separator 0 (pieces t)
  have hrow := isRow_pieces t
  rw [hpieces] at hrow
  -- Stretches of the row are read as the same pieces when they stand alone.
  have hfirstRow : pieces (textOf first) = first := hrow.front
  have hothersRow : ∀ part ∈ others, pieces (textOf part) = part := by
    intro part hpart
    refine hrow.of_isInfix (List.IsInfix.trans ?_ (List.suffix_append _ _).isInfix)
    obtain ⟨before, after, rfl⟩ := List.append_of_mem hpart
    exact ⟨before.flatMap (.plain separator :: ·) ++ [.plain separator],
      after.flatMap (.plain separator :: ·), by simp⟩
  refine ⟨textOf first, others.map textOf, hsplit, ?_, List.forall_mem_cons.mpr ⟨?_, ?_⟩⟩
  · rw [hpieces, hfirstRow, List.flatMap_map]
    congr 1
    rw [List.flatMap_def, List.flatMap_def]
    congr 1
    refine List.map_congr_left fun part hpart => ?_
    rw [hothersRow part hpart]
  · rw [splitTop, hfirstRow, hfirst]
  · intro text htext
    obtain ⟨part, hpart, rfl⟩ := List.mem_map.mp htext
    rw [splitTop, hothersRow part hpart, hothers part hpart]

/-- The pieces of a part are a stretch of those of the text. -/
theorem isInfix_of_mem_splitTop {separator : Char} {t part : Text}
    (hpart : part ∈ splitTop separator t) : pieces part <:+: pieces t := by
  obtain ⟨first, others, hsplit, hpieces, -⟩ := exists_pieces_splitTop separator t
  rw [hpieces]
  rw [hsplit, List.mem_cons] at hpart
  rcases hpart with rfl | hpart
  · exact (List.prefix_append _ _).isInfix
  · obtain ⟨before, after, rfl⟩ := List.append_of_mem hpart
    exact ⟨pieces first ++ before.flatMap (fun part => .plain separator :: pieces part)
      ++ [.plain separator], after.flatMap (fun part => .plain separator :: pieces part), by simp⟩

/-! ### Places and parts -/

/-- Where the separators at the top level stand in a row of pieces that begins at
a position, inside `depth` brackets. -/
def separators (separator : Char) : Nat → Nat → List Piece → List Nat
  | _, _, [] => []
  | depth, start, p :: ps =>
    if p = .plain separator ∧ depth = 0 ∧ separator ∉ openingBrackets ++ closingBrackets then
      start :: separators separator 0 (start + Text.size p.text) ps
    else separators separator (p.topDepth depth) (start + Text.size p.text) ps

/-- There is one part more than there are separators. -/
theorem length_splitTopPieces (separator : Char) (depth start : Nat) (ps : List Piece) :
    (splitTopPieces separator depth ps).length
      = (separators separator depth start ps).length + 1 := by
  induction ps generalizing depth start with
  | nil => rfl
  | cons p ps ih =>
      rw [splitTopPieces_step, separators]
      split
      · rw [List.length_cons, List.length_cons, ih]
      · rw [← ih]
        cases hparts : splitTopPieces separator (p.topDepth depth) ps with
        | nil => exact absurd hparts (splitTopPieces_ne_nil separator _ ps)
        | cons part parts => rfl

/-- The separators at the top level are among the characters of the row. -/
theorem separators_sublist (separator : Char) (depth start : Nat) (ps : List Piece) :
    (separators separator depth start ps).Sublist (positions separator start ps) := by
  induction ps generalizing depth start with
  | nil => exact List.Sublist.refl []
  | cons p ps ih =>
      rw [separators, positions]
      split
      · rename_i hsep
        rw [if_pos hsep.1]
        exact (ih ..).cons_cons _
      · split
        · exact (ih ..).cons _
        · exact ih ..

/-- The first piece, and the others. -/
theorem mem_separators_cons {separator : Char} {depth start offset : Nat} {p : Piece}
    {ps : List Piece} :
    offset ∈ separators separator depth start (p :: ps)
      ↔ (p = .plain separator ∧ depth = 0 ∧ separator ∉ openingBrackets ++ closingBrackets
          ∧ offset = start)
        ∨ offset ∈ separators separator (p.topDepth depth) (start + Text.size p.text) ps := by
  rw [separators]
  split
  · rename_i hsep
    obtain ⟨rfl, rfl, hno⟩ := hsep
    -- A separator is no bracket, so the count stays at zero.
    have hdepth : (Piece.plain separator).topDepth 0 = 0 := by
      rw [List.mem_append, not_or] at hno
      rw [Piece.topDepth, if_neg hno.1, if_neg hno.2]
    simp [hdepth, hno]
  · rename_i hsep
    constructor
    · exact .inr
    · rintro (⟨hp, hdepth, hno, -⟩ | hrest)
      · exact absurd ⟨hp, hdepth, hno⟩ hsep
      · exact hrest

/-- A separator at the top level divides the row where no bracket is open. -/
theorem mem_separators {separator : Char} {depth start offset : Nat} {ps : List Piece} :
    offset ∈ separators separator depth start ps
      ↔ separator ∉ openingBrackets ++ closingBrackets
        ∧ ∃ before after, ps = before ++ .plain separator :: after
          ∧ offset = start + Text.size (textOf before) ∧ topDepth depth before = 0 := by
  constructor
  · intro h
    induction ps generalizing depth start with
    | nil => cases h
    | cons p ps ih =>
        rcases mem_separators_cons.mp h with ⟨rfl, hdepth, hno, rfl⟩ | h
        · exact ⟨hno, [], ps, rfl, rfl, hdepth⟩
        · obtain ⟨hno, before, after, rfl, rfl, hdepth⟩ := ih h
          exact ⟨hno, p :: before, after, rfl, by simp [Nat.add_assoc], hdepth⟩
  · rintro ⟨hno, before, after, rfl, rfl, hdepth⟩
    induction before generalizing depth start with
    | nil => exact mem_separators_cons.mpr (.inl ⟨rfl, hdepth, hno, rfl⟩)
    | cons p before ih =>
        refine mem_separators_cons.mpr (.inr ?_)
        rw [textOf_cons, Text.size_append, ← Nat.add_assoc]
        exact ih hdepth

section

variable {t : Text} {before after : List Piece}

/-- Between the ends of a stretch of pieces, counting by positions is counting
the pieces. -/
theorem countOutside_eq {ps : List Piece} (h : pieces t = before ++ (ps ++ after))
    (cs : List Char) :
    countOutside t cs (Text.size (textOf before))
        (Text.size (textOf before) + Text.size (textOf ps))
      = countPlain cs ps := by
  simp only [countOutside, countPlain, card_standsOutside h]

/-- A row can be divided at the first piece that begins at a position or behind
it. -/
theorem exists_aligned {start base : Nat} {ps : List Piece}
    (h : start ≤ base + Text.size (textOf ps)) :
    ∃ front back, ps = front ++ back ∧ start ≤ base + Text.size (textOf front)
      ∧ ∀ c, ∀ offset ∈ positions c base front, offset < start := by
  induction ps generalizing base with
  | nil => exact ⟨[], [], rfl, h, by simp [positions]⟩
  | cons p ps ih =>
      by_cases hstart : start ≤ base
      · exact ⟨[], p :: ps, rfl, Nat.le_add_right_of_le hstart, by simp [positions]⟩
      · rw [textOf_cons, Text.size_append, ← Nat.add_assoc] at h
        obtain ⟨front, back, rfl, hle, hfront⟩ := ih h
        refine ⟨p :: front, back, rfl, ?_, fun c offset hoffset => ?_⟩
        · rwa [textOf_cons, Text.size_append, ← Nat.add_assoc]
        · rcases mem_positions_cons.mp hoffset with ⟨-, rfl⟩ | hoffset
          · omega
          · exact hfront c offset hoffset

/-- Between two pieces, no bracket is open if none is in the pieces before. -/
theorem outsideBrackets_iff (h : pieces t = before ++ after) :
    OutsideBrackets t (Text.size (textOf before)) ↔ topDepth 0 before = 0 := by
  rw [← Nat.le_zero, topDepth_le_iff]
  constructor
  · rintro hout back ⟨front, rfl⟩
    have hpieces : pieces t = front ++ (back ++ after) := by rw [h, List.append_assoc]
    have hle := hout (Text.size (textOf front)) (by simp)
    rwa [textOf_append, Text.size_append, countOutside_eq hpieces, countOutside_eq hpieces] at hle
  · intro hcount start hstart
    rw [← Nat.zero_add (Text.size (textOf before))] at hstart
    obtain ⟨front, back, rfl, hle, hfront⟩ := exists_aligned hstart
    rw [Nat.zero_add] at hle
    have hpieces : pieces t = front ++ (back ++ after) := by rw [h, List.append_assoc]
    -- What stands outside literals from `start` on stands in the pieces at the back.
    have halign : ∀ cs, countOutside t cs start (Text.size (textOf (front ++ back)))
        = countPlain cs back := by
      intro cs
      rw [← countOutside_eq hpieces cs, textOf_append, Text.size_append]
      unfold countOutside
      congr 1
      refine List.map_congr_left fun c _ => congrArg Finset.card ?_
      ext offset
      simp only [Finset.mem_filter, Finset.mem_Ico]
      constructor
      · rintro ⟨⟨hge, hlt⟩, hstands⟩
        refine ⟨⟨?_, hlt⟩, hstands⟩
        have hmem := mem_positions_pieces.mpr hstands
        rw [hpieces, positions_append, List.mem_append] at hmem
        rcases hmem with hmem | hmem
        · have := hfront c offset hmem
          omega
        · have := bounds_of_mem_positions hmem
          omega
      · rintro ⟨⟨hge, hlt⟩, hstands⟩
        exact ⟨⟨by omega, hlt⟩, hstands⟩
    rw [halign, halign]
    exact hcount back (List.suffix_append front back)

end

/-- The separators of a row of pieces are those of the text. -/
theorem mem_separators_pieces {separator : Char} {t : Text} {offset : Nat} :
    offset ∈ separators separator 0 0 (pieces t) ↔ SeparatesAt separator t offset := by
  rw [mem_separators]
  constructor
  · rintro ⟨hno, before, after, hpieces, rfl, hdepth⟩
    rw [Nat.zero_add]
    refine ⟨mem_positions_pieces.mp (mem_positions.mpr ⟨before, after, hpieces, ?_⟩),
      (outsideBrackets_iff hpieces).mpr hdepth, hno⟩
    rw [Nat.zero_add]
  · rintro ⟨hstands, hout, hno⟩
    obtain ⟨before, after, hpieces, rfl⟩ := mem_positions.mp (mem_positions_pieces.mpr hstands)
    rw [Nat.zero_add] at hout
    exact ⟨hno, before, after, hpieces, rfl, (outsideBrackets_iff hpieces).mp hout⟩

/-- There is one part more than there are separators at the top level. -/
theorem length_splitTop (separator : Char) (t : Text) :
    (splitTop separator t).length
      = ((Finset.range (Text.size t)).filter (SeparatesAt separator t)).card + 1 := by
  have hset : (Finset.range (Text.size t)).filter (SeparatesAt separator t)
      = (separators separator 0 0 (pieces t)).toFinset := by
    ext offset
    rw [Finset.mem_filter, Finset.mem_range, List.mem_toFinset, mem_separators_pieces]
    exact ⟨And.right, fun h => ⟨Text.lt_size_of_charAt? h.stands.1, h⟩⟩
  have hnodup : (separators separator 0 0 (pieces t)).Nodup :=
    (nodup_positions separator 0 (pieces t)).sublist (separators_sublist ..)
  rw [hset, List.toFinset_card_of_nodup hnodup]
  exact length_splitTopPieces separator 0 0 (pieces t)

/-- Cutting a text at a separator loses nothing and misses no separator, whatever
brackets and literals are left open: the parts joined again are the text, each
part is one part when it is cut again, no separator is left at the top level of
a part, and there is a part for each separator at the top level of the text and
one more. -/
theorem splitTop_complete (separator : Char) (t : Text) :
    Text.joinWith [separator] (splitTop separator t) = t
    ∧ (∀ part ∈ splitTop separator t, splitTop separator part = [part])
    ∧ (∀ part ∈ splitTop separator t, ∀ offset, ¬ SeparatesAt separator part offset)
    ∧ (splitTop separator t).length
        = ((Finset.range (Text.size t)).filter (SeparatesAt separator t)).card + 1 := by
  have hagain : ∀ part ∈ splitTop separator t, splitTop separator part = [part] := by
    obtain ⟨first, others, hsplit, -, hagain⟩ := exists_pieces_splitTop separator t
    rwa [hsplit]
  refine ⟨?_, hagain, fun part hpart offset hsep => ?_, length_splitTop separator t⟩
  · rw [splitTop, joinWith_splitTopPieces, text_pieces]
  · -- A separator that is left would be counted when the part is cut again.
    have hlength := length_splitTop separator part
    rw [hagain part hpart, List.length_singleton, Nat.right_eq_add, Finset.card_eq_zero] at hlength
    have hmem : offset ∈ (Finset.range (Text.size part)).filter (SeparatesAt separator part) :=
      Finset.mem_filter.mpr ⟨Finset.mem_range.mpr (Text.lt_size_of_charAt? hsep.stands.1), hsep⟩
    rw [hlength] at hmem
    exact absurd hmem (Finset.notMem_empty offset)

-- A bracket that closes nothing, a string that ends with its line, and a bracket and a
-- comment that stay open.
example : splitTop ',' "a), \"b, c\n, d(e, /* f, ".toList
    = ["a)".toList, " \"b, c\n".toList, " d(e, /* f, ".toList] := by
  decide +kernel

end Stylesheet
