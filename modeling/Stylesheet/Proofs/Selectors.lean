import Mathlib.Data.List.DropRight
import Stylesheet.Proofs.Reading
import Stylesheet.Selector

/-!
# Composed selectors are clean

A selector is put together from pieces of headers: a header is cut at its
commas, the parts are trimmed, and outer selectors take the place of `&`
or come in front. `isSelector_compose`: out of clean headers come clean
texts, ones that can be headers themselves.

That needs two things of the headers. A slash at the end of one text and a
star at the start of another would make a comment, so there is no slash
outside strings; and an `&` inside a string would bring the quotes of the
outer selector into it, so there is none (`Piece.composes`).

The proof follows the pieces. Those of a part are some of the pieces of
the header, those of a trimmed part are some of these, and replacing `&`
replaces one piece by those of the outer selector. `pieces_textOf` leads
back from the pieces to the text: simple pieces, in whatever order, are
the pieces of their text.
-/

set_option autoImplicit false

namespace Stylesheet

/-! ### Simple pieces -/

/-- Whether selectors can be composed from a piece. -/
def Piece.composes : Piece → Bool
  | .plain c => c != '/'
  | .string t => !List.contains t '&'
  | .comment _ => false

/-- A piece that stays what it is in any place of a selector. -/
structure Piece.IsSimple (p : Piece) : Prop where
  alone : pieces p.text = [p]
  closed : p.closed = true
  inert : p ≠ .plain '{' ∧ p ≠ .plain '}' ∧ p ≠ .plain ';'
  composes : p.composes = true

/-- Read alone, a closed string is the same string. -/
theorem Literal.takeString_inside {q : Char} {t : Text}
    (h : endsString q (takeString q t).1 = true) :
    takeString q (takeString q t).1 = ((takeString q t).1, []) := by
  fun_induction takeString q t with
  | case1 => cases h
  | case2 c hc => cases h
  | case3 c hc => simp [takeString, hc]
  | case4 c d r hb inside rest heq ih =>
      rw [heq] at ih
      have hinside : endsString q inside = true := by simpa [endsString, hb] using h
      simp [takeString, hb, ih hinside]
  | case5 c d r hb hn => cases h
  | case6 c d r hb hn hcq => simp [takeString, hn]
  | case7 c d r hb hn hcq inside rest heq ih =>
      rw [heq] at ih
      cases inside with
      | nil => simp [endsString, hcq] at h
      | cons e inside =>
          have hinside : endsString q (e :: inside) = true := by simpa [endsString, hb] using h
          simp [takeString, hb, hn, hcq, ih hinside]

/-- Read alone, a closed comment is the same comment. -/
theorem Literal.takeComment_inside {t : Text} (h : endsComment (takeComment t).1 = true) :
    takeComment (takeComment t).1 = ((takeComment t).1, []) := by
  fun_induction takeComment t with
  | case1 => rfl
  | case2 c => rfl
  | case3 c d r hcd => simp [takeComment, hcd]
  | case4 c d r hcd inside rest heq ih =>
      have hhead := head?_takeComment d r
      rw [heq] at ih hhead
      have hinside := ih (by rwa [endsComment_cons hcd hhead] at h)
      obtain ⟨inside', rfl⟩ := List.head?_eq_some_iff.mp hhead
      simp [takeComment, hcd, hinside]

/-- The pieces of a text are pieces on their own. -/
theorem pieces_text_of_mem {t : Text} {p : Piece} (hp : p ∈ pieces t) (hclosed : p.closed = true) :
    pieces p.text = [p] := by
  fun_induction pieces t with
  | case1 => cases hp
  | case2 c r p' rest h ih =>
      rcases List.mem_cons.mp hp with rfl | hp
      · rcases Literal.take?_cases h with ⟨q, r', hq, -, rfl, -⟩ | ⟨r', -, rfl, -⟩
        · have htake := Literal.take?_quote hq (Literal.takeString q r').1
          rw [Literal.takeString_inside hclosed] at htake
          rw [Piece.text, pieces_of_take? htake, pieces]
        · have htake := Literal.take?_comment (Literal.takeComment r').1
          rw [Literal.takeComment_inside hclosed] at htake
          rw [Piece.text, pieces_of_take? htake, pieces]
      · exact ih hp
  | case3 c r h ih =>
      rcases List.mem_cons.mp hp with rfl | hp
      · have hplain : Literal.take? [c] = none :=
          Literal.take?_eq_none.mpr ⟨(Literal.take?_eq_none.mp h).1, by simp⟩
        rw [Piece.text, pieces_of_plain hplain, pieces]
      · exact ih hp

/-- Simple pieces are the pieces of their text. -/
theorem pieces_textOf {ps : List Piece} (h : ∀ p ∈ ps, p.IsSimple) : pieces (textOf ps) = ps := by
  induction ps with
  | nil => rw [textOf_nil, pieces]
  | cons p ps ih =>
      rw [List.forall_mem_cons] at h
      have hslash : p ≠ .plain '/' := by
        rintro rfl
        cases h.1.composes
      rw [textOf_cons, pieces_append, h.1.alone, ih h.2]
      · rfl
      · rw [h.1.alone, List.forall_mem_singleton]
        exact h.1.closed
      · rw [h.1.alone]
        exact fun hlast => absurd (Option.some.inj hlast) hslash

/-! ### Parts of a header -/

/-- One step of cutting at a separator: a part ends there, or the piece
belongs to the part that is open. -/
theorem splitTopPieces_cons {separator : Char} {depth d : Nat} {p : Piece}
    (hinert : p ≠ .plain '{' ∧ p ≠ .plain '}') (hp : p.openBehind depth = some d)
    (ps : List Piece) :
    (depth = 0 ∧ d = 0
        ∧ splitTopPieces separator depth (p :: ps) = [] :: splitTopPieces separator 0 ps)
      ∨ splitTopPieces separator depth (p :: ps)
          = extendFirst p.text (splitTopPieces separator d ps) := by
  cases p with
  | plain c =>
      obtain rfl := Piece.eq_of_openBehind_plain hp
      -- Braces count for the separators and not for the brackets, so there must be none.
      have hopen : c ≠ '{' := fun hc => hinert.1 (by rw [hc])
      have hclose : c ≠ '}' := fun hc => hinert.2 (by rw [hc])
      simp only [splitTopPieces, Node.bracketDepth, hopen, hclose, or_false]
      split
      · exact .inr rfl
      · split
        · exact .inr rfl
        · split
          · rename_i hsep
            exact .inl ⟨hsep.2, hsep.2, by rw [hsep.2]⟩
          · exact .inr rfl
  | string t =>
      cases hp
      exact .inr rfl
  | comment t =>
      cases hp
      exact .inr rfl

/-- The parts between separators are made of neighbouring pieces, and
their brackets are balanced. The first one may be inside `depth` brackets
that were opened before it. -/
theorem exists_splitTopPieces (separator : Char) {ps : List Piece}
    (hinert : ∀ p ∈ ps, p ≠ .plain '{' ∧ p ≠ .plain '}') {depth : Nat}
    (hopen : openBehind depth ps = some 0) :
    ∃ (first : List Piece) (others : List (List Piece)),
      splitTopPieces separator depth ps = textOf first :: others.map textOf
      ∧ (first <+: ps ∧ openBehind depth first = some 0)
      ∧ ∀ part ∈ others, part <:+: ps ∧ openBehind 0 part = some 0 := by
  induction ps generalizing depth with
  | nil => exact ⟨[], [], rfl, ⟨List.nil_prefix, hopen⟩, by simp⟩
  | cons p ps ih =>
      obtain ⟨d, hp, hps⟩ := openBehind_cons.mp hopen
      rw [List.forall_mem_cons] at hinert
      -- The first part begins at the depth of the text,
      -- and the others begin outside of brackets.
      obtain ⟨first, others, hsplit, ⟨hfront, hfirst⟩, hothers⟩ := ih hinert.2 hps
      have hlonger : ∀ part, part <:+: ps → part <:+: p :: ps := fun part h =>
        h.trans (List.suffix_cons p ps).isInfix
      rcases splitTopPieces_cons hinert.1 hp ps with ⟨rfl, rfl, hcut⟩ | hextend
      · -- The part that was open ends; the first part behind the separator is one of the others.
        refine ⟨[], first :: others, by rw [hcut, hsplit]; rfl, ⟨List.nil_prefix, rfl⟩, ?_⟩
        rw [List.forall_mem_cons]
        exact ⟨⟨hlonger _ hfront.isInfix, hfirst⟩,
          fun part h => ⟨hlonger _ (hothers part h).1, (hothers part h).2⟩⟩
      · refine ⟨p :: first, others, ?_, ⟨?_, ?_⟩, ?_⟩
        · rw [hextend, hsplit, textOf_cons]
          rfl
        · exact List.cons_prefix_cons.mpr ⟨rfl, hfront⟩
        · exact openBehind_cons.mpr ⟨d, hp, hfirst⟩
        · exact fun part h => ⟨hlonger _ (hothers part h).1, (hothers part h).2⟩

/-! ### Trimming by pieces -/

/-- Whether a piece is a blank. -/
def Piece.isGap : Piece → Bool
  | .plain c => isBlank c
  | _ => false

/-- A row of blanks is a blank text. -/
theorem blank_textOf {ps : List Piece} (h : ∀ p ∈ ps, p.isGap = true) :
    Text.blank (textOf ps) = true := by
  induction ps with
  | nil => rfl
  | cons p ps ih =>
      rw [List.forall_mem_cons] at h
      rw [textOf_cons, Text.blank_append, ih h.2, Bool.and_true]
      cases p with
      | plain c =>
          have hc : isBlank c = true := h.1
          simp [Piece.text, Text.blank, hc]
      | string t => cases h.1
      | comment t => cases h.1

/-- Blanks open and close nothing. -/
theorem openBehind_gap {ps : List Piece} (h : ∀ p ∈ ps, p.isGap = true) (depth : Nat) :
    openBehind depth ps = some depth := by
  induction ps with
  | nil => rfl
  | cons p ps ih =>
      rw [List.forall_mem_cons] at h
      refine openBehind_cons.mpr ⟨depth, ?_, ih h.2⟩
      cases p with
      | plain c => exact Text.openBehind_of_not_mem (Text.not_mem_marks h.1) depth
      | string t => cases h.1
      | comment t => cases h.1

/-- A closed string ends with its quote. -/
theorem Literal.getLast?_of_endsString {q : Char} {t : Text} (h : endsString q t = true) :
    t.getLast? = some q := by
  fun_induction endsString q t with
  | case1 => cases h
  | case2 c =>
      have hc : c = q := by simpa using h
      rw [hc]
      rfl
  | case3 c d r hb ih =>
      have hlast := ih h
      rwa [List.getLast?_cons_cons, List.getLast?_cons_of_ne_nil]
      exact List.ne_nil_of_mem (List.mem_of_getLast? hlast)
  | case4 c d r hb ih =>
      rw [List.getLast?_cons_cons]
      exact ih h

/-- A simple piece that is no blank has ends. -/
theorem Piece.IsSimple.hasEnds {p : Piece} (h : p.IsSimple) (hgap : p.isGap = false) :
    p.text ≠ [] ∧ Text.HasEnds p.text := by
  cases p with
  | plain c =>
      have hc : isBlank c = false := hgap
      exact ⟨by simp [Piece.text], ⟨by simpa [Piece.text] using hc, by simpa [Piece.text] using hc⟩⟩
  | string t =>
      cases t with
      | nil => cases h.closed
      | cons q inside =>
          -- It begins and ends with its quote, which is no blank: a blank is a piece of its own.
          have hlast := Literal.getLast?_of_endsString h.closed
          have hq : isBlank q = false := by
            rw [← Bool.not_eq_true]
            intro hblank
            have halone := h.alone
            rw [Piece.text, pieces_cons (Text.isQuote_eq_false hblank)
              (Text.ne_of_isBlank hblank (by decide))] at halone
            cases halone
          refine ⟨by simp [Piece.text], ⟨by simpa [Piece.text] using hq, ?_⟩⟩
          rw [Piece.text, List.getLast?_cons_of_ne_nil (by rintro rfl; cases hlast), hlast]
          simpa using hq
  | comment t => cases h.composes

/-- A row whose first and last pieces are no blanks is a text without blanks at
its ends. Simple pieces are closed: an open literal could end with a blank. -/
theorem hasEnds_textOf {ps : List Piece} (h : ∀ p ∈ ps, p.IsSimple)
    (hhead : ∀ p ∈ ps.head?, p.isGap = false) (hlast : ∀ p ∈ ps.getLast?, p.isGap = false) :
    Text.HasEnds (textOf ps) := by
  refine ⟨?_, ?_⟩
  · cases ps with
    | nil => simp
    | cons p ps =>
        obtain ⟨hne, hends⟩ := (h p List.mem_cons_self).hasEnds (hhead p rfl)
        rw [textOf_cons, List.head?_append_of_ne_nil _ hne]
        exact hends.head
  · rcases List.eq_nil_or_concat ps with rfl | ⟨init, p, rfl⟩
    · simp
    · obtain ⟨hne, hends⟩ := (h p (by simp)).hasEnds (hlast p (by simp))
      rw [List.concat_eq_append, textOf_append, textOf_cons, textOf_nil, List.append_nil,
        List.getLast?_append_of_ne_nil _ hne]
      exact hends.last

/-- The pieces of a trimmed text are those between the blanks. -/
theorem exists_trim {ps : List Piece} (h : ∀ p ∈ ps, p.IsSimple) :
    ∃ front inside back : List Piece, ps = front ++ (inside ++ back)
      ∧ (∀ p ∈ front, p.isGap = true) ∧ (∀ p ∈ back, p.isGap = true)
      ∧ Text.HasEnds (textOf inside) ∧ Text.trim (textOf ps) = textOf inside := by
  -- First the blanks in front, then those at the end of what is left.
  obtain ⟨front, behind, hps, hfront, hbehind⟩ : ∃ front behind : List Piece, ps = front ++ behind
      ∧ (∀ p ∈ front, p.isGap = true) ∧ ∀ p ∈ behind.head?, p.isGap = false := by
    refine ⟨ps.takeWhile Piece.isGap, ps.dropWhile Piece.isGap,
      List.takeWhile_append_dropWhile.symm, fun p hp => List.mem_takeWhile_imp hp, ?_⟩
    intro p hp
    have hnot := List.head?_dropWhile_not Piece.isGap ps
    rwa [Option.mem_def.mp hp] at hnot
  obtain ⟨inside, back, hsplit, hback, hlast⟩ : ∃ inside back : List Piece, behind = inside ++ back
      ∧ (∀ p ∈ back, p.isGap = true) ∧ ∀ p ∈ inside.getLast?, p.isGap = false := by
    refine ⟨behind.rdropWhile Piece.isGap, behind.rtakeWhile Piece.isGap,
      List.rdropWhile_append_rtakeWhile.symm, fun p hp => List.mem_rtakeWhile_imp hp, ?_⟩
    intro p hp
    obtain ⟨hne, rfl⟩ := List.mem_getLast?_eq_getLast hp
    rw [← Bool.not_eq_true]
    exact List.rdropWhile_last_not Piece.isGap behind hne
  have hinside : Text.HasEnds (textOf inside) := by
    refine hasEnds_textOf (fun p hp => h p (by simp [hps, hsplit, hp])) ?_ hlast
    intro p hp
    refine hbehind p ?_
    rw [hsplit, List.head?_append, Option.mem_def.mp hp]
    rfl
  refine ⟨front, inside, back, by rw [hps, hsplit], hfront, hback, hinside, ?_⟩
  rw [hps, hsplit, textOf_append, textOf_append]
  exact Text.trim_gap hinside (blank_textOf hfront) (blank_textOf hback)

/-! ### Selectors -/

namespace Selector

/-- A text that other selectors can be composed from, and that can be a
header. -/
structure IsSelector (t : Text) : Prop where
  simple : ∀ p ∈ pieces t, p.IsSimple
  balanced : openBehind 0 (pieces t) = some 0
  collapsed : Text.IsCollapsed t
  ne_nil : t ≠ []

/-- A selector told by its pieces. -/
theorem isSelector_textOf {ps : List Piece} (hsimple : ∀ p ∈ ps, p.IsSimple)
    (hopen : openBehind 0 ps = some 0) (hcollapsed : Text.IsCollapsed (textOf ps))
    (hne : textOf ps ≠ []) : IsSelector (textOf ps) := by
  have hpieces := pieces_textOf hsimple
  exact ⟨by rwa [hpieces], by rwa [hpieces], hcollapsed, hne⟩

/-- A selector is a clean text, so it can be a header. -/
theorem IsSelector.isClean {t : Text} (h : IsSelector t) : Text.IsClean t where
  closed p hp := (h.simple p hp).closed
  balanced := h.balanced
  inert p hp := (h.simple p hp).inert
  collapsed := h.collapsed.collapse_eq

/-- It does not begin as a comment, because it has no slash. -/
theorem IsSelector.noComment {t : Text} (h : IsSelector t) : Text.beginsComment t = false := by
  rw [← Bool.not_eq_true]
  intro hcomment
  obtain ⟨r, rfl⟩ := List.isPrefixOf_iff_prefix.mp hcomment
  have hpieces : pieces (['/', '*'] ++ r) = _ := pieces_of_take? (Literal.take?_comment r)
  have hsimple := h.simple
  rw [hpieces] at hsimple
  cases (hsimple _ List.mem_cons_self).composes

/-! ### Branches -/

/-- A header whose branches are selectors. -/
structure IsHeader (header : Text) : Prop where
  clean : Text.IsClean header
  composes : ∀ p ∈ pieces header, p.composes = true

instance (header : Text) : Decidable (IsHeader header) :=
  decidable_of_iff (Text.IsClean header ∧ ∀ p ∈ pieces header, p.composes = true)
    ⟨fun h => ⟨h.1, h.2⟩, fun h => ⟨h.clean, h.composes⟩⟩

/-- The pieces of a header are simple: those that compose, in a clean text. -/
theorem IsHeader.simple {header : Text} (h : IsHeader header) : ∀ p ∈ pieces header, p.IsSimple :=
  fun p hp => ⟨pieces_text_of_mem hp (h.clean.closed p hp), h.clean.closed p hp,
    h.clean.inert p hp, h.composes p hp⟩

/-- A part of a header is made of neighbouring pieces of it. -/
theorem exists_of_mem_splitTop {header : Text} (h : IsHeader header) {part : Text}
    (hpart : part ∈ splitTop ',' header) :
    ∃ ps, part = textOf ps ∧ ps <:+: pieces header ∧ openBehind 0 ps = some 0 := by
  obtain ⟨first, others, hsplit, ⟨hfront, hfirst⟩, hothers⟩ :=
    exists_splitTopPieces ',' (fun p hp => ⟨(h.clean.inert p hp).1, (h.clean.inert p hp).2.1⟩)
      h.clean.balanced
  rw [splitTop, hsplit, List.mem_cons, List.mem_map] at hpart
  rcases hpart with rfl | ⟨ps, hps, rfl⟩
  · exact ⟨first, rfl, hfront.isInfix, hfirst⟩
  · exact ⟨ps, rfl, hothers ps hps⟩

/-- Neighbouring pieces spell neighbouring text. -/
theorem textOf_within {ps qs : List Piece} (h : ps <:+: qs) : textOf ps <:+: textOf qs := by
  obtain ⟨front, back, rfl⟩ := h
  exact ⟨textOf front, textOf back, by simp⟩

/-- The branches of a header are selectors. -/
theorem isSelector_of_mem_branches {header : Text} (h : IsHeader header) {branch : Text}
    (hbranch : branch ∈ branches header) : IsSelector branch := by
  rw [branches, List.mem_filter, List.mem_map] at hbranch
  obtain ⟨⟨part, hpart, rfl⟩, hne⟩ := hbranch
  obtain ⟨ps, rfl, hps, hopen⟩ := exists_of_mem_splitTop h hpart
  have hsimple : ∀ p ∈ ps, p.IsSimple := fun p hp => h.simple p (hps.subset hp)
  obtain ⟨front, inside, back, rfl, hfront, hback, hends, htrim⟩ := exists_trim hsimple
  rw [htrim] at hne ⊢
  -- The blanks that are trimmed open and close nothing.
  have hinside : openBehind 0 inside = some 0 := by
    rw [openBehind_append, openBehind_gap hfront, Option.bind_some, openBehind_append] at hopen
    obtain ⟨d, hd, hrest⟩ := Option.bind_eq_some_iff.mp hopen
    rw [openBehind_gap hback] at hrest
    rw [hd, hrest]
  have hwithin : textOf inside <:+: header := by
    have hpieces : inside <:+: pieces header :=
      List.IsInfix.trans ⟨front, back, by simp⟩ hps
    simpa [text_pieces] using textOf_within hpieces
  -- Neighbours in the branch are neighbours in the header, so no two of them are blank.
  have hcollapsed := Text.collapse_eq_self_iff.mp h.clean.collapsed
  refine isSelector_textOf (fun p hp => hsimple p (by simp [hp])) hinside ?_ (by simpa using hne)
  exact ⟨hends, fun c hc => hcollapsed.space c (hwithin.subset hc),
    List.IsChain.infix hcollapsed.single hwithin⟩

/-! ### Composition -/

/-- The text that stands for one character when another text takes the
place of `c`. -/
def standIn (c : Char) (outer : Text) (d : Char) : Text := if d == c then outer else [d]

/-- What stands for a character that is no blank has no blanks at its ends. -/
theorem hasEnds_standIn {c : Char} {outer : Text} (houter : Text.HasEnds outer) {d : Char}
    (hd : isBlank d = false) : Text.HasEnds (standIn c outer d) := by
  unfold standIn
  split
  · exact houter
  · exact ⟨by simpa using hd, by simpa using hd⟩

/-- Nor is it empty. -/
theorem standIn_ne_nil {c : Char} {outer : Text} (hne : outer ≠ []) (d : Char) :
    standIn c outer d ≠ [] := by
  unfold standIn
  split
  · exact hne
  · simp

/-- A collapsed text stays collapsed when a character that is no blank is
replaced by collapsed text. -/
theorem isCollapsed_substitute (c : Char) {outer t : Text} (houter : Text.IsCollapsed outer)
    (hne : outer ≠ []) (ht : Text.IsCollapsed t) :
    Text.IsCollapsed (Text.substitute c outer t) := by
  -- Each character is replaced by a text that is not
  -- empty, and by itself unless it is the one replaced.
  have hsub : Text.substitute c outer t = (t.map (standIn c outer)).flatten := List.flatMap_def
  refine ⟨⟨?_, ?_⟩, ?_, ?_⟩
  · cases t with
    | nil => simp [hsub]
    | cons d t =>
        rw [hsub, List.map_cons, List.flatten_cons,
          List.head?_append_of_ne_nil _ (standIn_ne_nil hne d)]
        exact (hasEnds_standIn houter.toHasEnds (ht.head d rfl)).head
  · rcases List.eq_nil_or_concat t with rfl | ⟨front, d, rfl⟩
    · simp [hsub]
    · rw [hsub, List.concat_eq_append, List.map_append, List.flatten_append, List.map_singleton,
        List.flatten_singleton, List.getLast?_append_of_ne_nil _ (standIn_ne_nil hne d)]
      exact (hasEnds_standIn houter.toHasEnds (ht.last d (by simp))).last
  · intro e he hblank
    rw [hsub, List.mem_flatten] at he
    obtain ⟨part, hpart, he⟩ := he
    obtain ⟨d, hd, rfl⟩ := List.mem_map.mp hpart
    unfold standIn at he
    split at he
    · exact houter.space e he hblank
    · rw [List.mem_singleton.mp he] at hblank ⊢
      exact ht.space d hd hblank
  · have hnil : [] ∉ t.map (standIn c outer) := by
      intro h
      obtain ⟨d, -, hd⟩ := List.mem_map.mp h
      exact standIn_ne_nil hne d hd
    rw [hsub, List.isChain_flatten hnil]
    refine ⟨?_, ?_⟩
    · intro part hpart
      obtain ⟨d, -, rfl⟩ := List.mem_map.mp hpart
      unfold standIn
      split
      · exact houter.single
      · exact List.isChain_singleton d
    · -- Of two neighbours one is no blank, and so is the end of what stands for it.
      refine List.isChain_map_of_isChain _ ?_ ht.single
      intro d e hde x hx y hy
      rcases hde with hd | he
      · exact .inl ((hasEnds_standIn houter.toHasEnds hd).last x hx)
      · exact .inr ((hasEnds_standIn houter.toHasEnds he).head y hy)

/-- The pieces that stand for one piece when an outer selector takes the
place of `&`. -/
def insert (outer : List Piece) (p : Piece) : List Piece := if p = .plain '&' then outer else [p]

/-- Without the character nothing is replaced. -/
theorem substitute_eq_self {c : Char} {t : Text} (h : c ∉ t) (outer : Text) :
    Text.substitute c outer t = t := by
  induction t with
  | nil => rfl
  | cons d t ih =>
      rw [List.mem_cons, not_or] at h
      rw [Text.substitute, List.flatMap_cons, if_neg (by simpa using Ne.symm h.1)]
      exact congrArg (d :: ·) (ih h.2)

/-- Replacing `&` in a text is replacing it among the pieces. Strings are kept
whole, which is why simple ones have no `&` in them. -/
theorem substitute_textOf {ps : List Piece} (h : ∀ p ∈ ps, p.IsSimple) (outer : Text) :
    Text.substitute '&' outer (textOf ps) = textOf (ps.flatMap (insert (pieces outer))) := by
  induction ps with
  | nil => rfl
  | cons p ps ih =>
      rw [List.forall_mem_cons] at h
      -- In a simple piece no `&` is inside a string,
      -- so replacing characters is replacing pieces.
      have hp : Text.substitute '&' outer p.text = textOf (insert (pieces outer) p) := by
        unfold insert
        split
        · rename_i hamp
          rw [hamp, text_pieces]
          exact List.append_nil outer
        · rename_i hamp
          have hnot : '&' ∉ p.text := by
            cases p with
            | plain c => simpa [Piece.text, eq_comm] using hamp
            | string t => simpa [Piece.composes, Piece.text] using h.1.composes
            | comment t => cases h.1.composes
          rw [substitute_eq_self hnot, textOf_cons, textOf_nil, List.append_nil]
      show Text.substitute '&' outer (textOf (p :: ps)) = _
      rw [textOf_cons, List.flatMap_cons, textOf_append, ← hp, ← ih h.2]
      exact List.flatMap_append

/-- A balanced selector in the place of `&` leaves the brackets as they were. -/
theorem openBehind_insert {outer : List Piece} (houter : openBehind 0 outer = some 0)
    {depth d : Nat} {ps : List Piece} (h : openBehind depth ps = some d) :
    openBehind depth (ps.flatMap (insert outer)) = some d := by
  induction ps generalizing depth with
  | nil => exact h
  | cons p ps ih =>
      obtain ⟨d', hp, hps⟩ := openBehind_cons.mp h
      have hinsert : openBehind depth (insert outer p) = some d' := by
        unfold insert
        split
        · -- `&` is no bracket, and the outer selector closes what it opens.
          rename_i hamp
          rw [hamp] at hp
          obtain rfl : d' = depth := Piece.eq_of_openBehind_plain hp
          simpa using openBehind_add houter d'
        · exact openBehind_cons.mpr ⟨d', hp, rfl⟩
      rw [List.flatMap_cons, openBehind_append, hinsert, Option.bind_some]
      exact ih hps

/-- One branch inside one selector. -/
theorem isSelector_nest {outer branch : Text} (houter : IsSelector outer)
    (hbranch : IsSelector branch) : IsSelector (nest outer branch) := by
  unfold nest
  split
  · -- The outer selector takes the place of every `&`.
    have hsub := substitute_textOf hbranch.simple outer
    rw [text_pieces] at hsub
    have hcollapsed := isCollapsed_substitute '&' houter.collapsed houter.ne_nil hbranch.collapsed
    have hne : Text.substitute '&' outer branch ≠ [] := by
      obtain ⟨d, rest, rfl⟩ := List.exists_cons_of_ne_nil hbranch.ne_nil
      intro hnil
      exact standIn_ne_nil houter.ne_nil d (List.append_eq_nil_iff.mp hnil).1
    rw [hsub] at hcollapsed hne ⊢
    refine isSelector_textOf ?_ (openBehind_insert houter.balanced hbranch.balanced) hcollapsed hne
    intro p hp
    obtain ⟨q, hq, hp⟩ := List.mem_flatMap.mp hp
    unfold insert at hp
    split at hp
    · exact houter.simple p hp
    · rw [List.mem_singleton.mp hp]
      exact hbranch.simple q hq
  · -- The branch is a descendant of the outer selector.
    have hpieces : pieces (outer ++ ' ' :: branch) = pieces outer ++ .plain ' ' :: pieces branch :=
      pieces_append_cons houter.isClean.closed (by decide) (by decide) (by decide) branch
    have hspace : (Piece.plain ' ').IsSimple := ⟨by decide +kernel, rfl, by simp, rfl⟩
    refine ⟨?_, ?_, ?_, by simp⟩
    · rw [hpieces, List.forall_mem_append, List.forall_mem_cons]
      exact ⟨houter.simple, hspace, hbranch.simple⟩
    · rw [hpieces, openBehind_append, houter.balanced]
      exact openBehind_cons.mpr ⟨0, rfl, hbranch.balanced⟩
    · exact houter.collapsed.append_space hbranch.collapsed houter.ne_nil hbranch.ne_nil

/-- All selectors that are composed from selectors and a header. -/
theorem isSelector_compose {outer : List Text} (houter : ∀ a ∈ outer, IsSelector a)
    {header : Text} (h : IsHeader header) : ∀ a ∈ compose outer header, IsSelector a := by
  intro a ha
  unfold compose at ha
  split at ha
  · exact isSelector_of_mem_branches h ha
  · obtain ⟨b, hb, ha⟩ := List.mem_flatMap.mp ha
    obtain ⟨branch, hbranch, rfl⟩ := List.mem_map.mp ha
    exact isSelector_nest (houter b hb) (isSelector_of_mem_branches h hbranch)

end Selector

end Stylesheet
