import Stylesheet.Node.Flat
import Stylesheet.Proofs.Derivation
import Stylesheet.Proofs.Scanning
import Stylesheet.Proofs.Statement

/-!
# What the parser has read

`parse` fails at a brace that does not fit, so what it has read is in order
elsewhere: `Items` says so of the nodes of a block, or of those at the top,
and `items_of_parse` says that it holds of every forest that was read from
a text whose literals are closed. Each line stays in its segment when it is
written down again, and so does each header. A bracket may be left open in
the last line of a block only, and no line or header inside a block has a
brace, because the braces of a block are balanced.

`IsRead` says of a declaration or a statement what the parser has found out
about it: where it divides a declaration, and why it does not divide a
statement.
-/

set_option autoImplicit false

namespace Stylesheet

/-! ### Lines -/

/-- What ends no segment inside a block ends none at the top. -/
theorem Scan.EndsAt.mono {nested nested' : Bool} {d depth : Nat} {t : Text}
    (h : EndsAt nested ⟨.plain, d⟩ t depth) (hle : nested' = true → nested = true) :
    EndsAt nested' ⟨.plain, d⟩ t depth := by
  obtain ⟨hclosed, hpassed⟩ := (Scan.endsAt_iff t).mp h
  exact (Scan.endsAt_iff t).mpr ⟨hclosed, passed_mono hle hpassed⟩

namespace Text

/-- A text that is a segment when it is written between two others, with
`depth` brackets open behind it. -/
structure IsLine (nested : Bool) (depth : Nat) (t : Text) : Prop extends HasEnds t where
  endsAt : Scan.EndsAt nested ⟨.plain, 0⟩ t depth
  noComment : beginsComment t = false

/-- A line is a segment. -/
theorem IsLine.isSegment {nested : Bool} {depth : Nat} {t : Text} (h : IsLine nested depth t) :
    IsSegment nested depth t := by
  obtain ⟨hclosed, hpassed⟩ := (Scan.endsAt_iff t).mp h.endsAt
  exact ⟨hclosed, hpassed, h.head, h.noComment⟩

/-- A line of a block is one at the top. -/
theorem IsLine.mono {nested nested' : Bool} {depth : Nat} {t : Text} (h : IsLine nested depth t)
    (hle : nested' = true → nested = true) : IsLine nested' depth t :=
  ⟨h.toHasEnds, h.endsAt.mono hle, h.noComment⟩

/-- Letters are read up to a character that is none of them. -/
theorem afterLetters?_append_mark {front : Text} {c : Char} (hc : c.toLower ∉ front) (t u : Text) :
    afterLetters? front (t ++ c :: u) = (afterLetters? front t).map (· ++ c :: u) := by
  fun_induction afterLetters? front t with
  | case1 t => simp [afterLetters?]
  | case2 f fs =>
      simp only [List.mem_cons, not_or] at hc
      simp [afterLetters?, hc.1]
  | case3 f fs d r hd ih =>
      simp only [List.mem_cons, not_or] at hc
      simp [afterLetters?, hd, ih hc.2]
  | case4 f fs d r hd => simp [afterLetters?, hd]

/-- A blank has no capital. -/
theorem toLower_of_isBlank {c : Char} (hc : isBlank c = true) : c.toLower = c := by
  unfold Char.toLower
  split
  · rename_i hcapital
    have hlow : 65 ≤ c.toNat := hcapital.1
    have hhigh : c.toNat ≤ 90 := hcapital.2
    simp only [isBlank, Bool.or_eq_true, Bool.and_eq_true, decide_eq_true_eq, beq_iff_eq] at hc
    omega
  · rfl

/-- The keyword is read up to a character that is not in it. -/
theorem beginsImport_append {t : Text} {c : Char} (hc : c.toLower ∉ "@import".toList) (u : Text) :
    beginsImport (t ++ c :: u) = beginsImport t := by
  rw [beginsImport, afterLetters?_append_mark hc, Option.isSome_map]
  rfl

/-- A blank is such a character. -/
theorem beginsImport_append_blank {t : Text} {c : Char} (hc : isBlank c = true) (u : Text) :
    beginsImport (t ++ c :: u) = beginsImport t := by
  refine beginsImport_append ?_ u
  rw [toLower_of_isBlank hc]
  intro hmem
  have hletters : "@import".toList.all (fun d => isBlank d == false) = true := by decide +kernel
  have hletter := List.all_eq_true.mp hletters c hmem
  rw [hc] at hletter
  cases hletter

/-- Collapsing changes nothing before the first blank. -/
theorem beginsImport_collapse {t : Text} (h : HasEnds t) :
    beginsImport (collapse t) = beginsImport t := by
  rcases collapse_cases h with heq | ⟨word, gap, rest, hgap, hne, -, -, rfl, heq⟩
  · rw [heq]
  · obtain ⟨c, gap, rfl⟩ := List.exists_cons_of_ne_nil hne
    have hc : isBlank c = true := blank_iff.mp hgap c List.mem_cons_self
    rw [heq, beginsImport_append_blank (by decide), List.cons_append, beginsImport_append_blank hc]

/-- Behind the same start, another character makes no comment either. -/
theorem beginsComment_append_cons {s u : Text} (h : beginsComment (s ++ u) = false) {c : Char}
    (hslash : c ≠ '/') (hstar : c ≠ '*') (v : Text) : beginsComment (s ++ c :: v) = false := by
  match s, h with
  | [], _ => simp [beginsComment, List.isPrefixOf, hslash.symm]
  | [d], _ => simp [beginsComment, List.isPrefixOf, hstar.symm]
  | _ :: _ :: _, h => exact h

/-- A line whose blanks are collapsed. -/
theorem IsLine.collapse {nested : Bool} {depth : Nat} {t : Text} (h : IsLine nested depth t) :
    IsLine nested depth (Text.collapse t) := by
  refine ⟨(isCollapsed_collapse t).toHasEnds, h.endsAt.collapse h.toHasEnds, ?_⟩
  have hcomment := h.noComment
  rcases collapse_cases h.toHasEnds with heq | ⟨word, gap, rest, -, -, -, -, rfl, heq⟩
  · rwa [heq]
  · rw [heq]
    exact beginsComment_append_cons hcomment (by decide) (by decide) _

end Text

namespace Scan

/-- Outside of literals the next character decides, unless it is a star, which
could make a comment of the slash before it. -/
theorem next_of_outside {nested : Bool} {mode : Mode} (hmode : mode.outside = true) {c : Char}
    (hc : c ≠ '*') (depth : Nat) : next nested ⟨mode, depth⟩ c = nextOutside nested depth c := by
  cases mode with
  | plain => rfl
  | slash => simp [next, hc]
  | _ => cases hmode

/-- Two texts with a colon between them. -/
theorem EndsAt.append_colon {nested : Bool} {t u : Text} {depth : Nat}
    (ht : EndsAt nested ⟨.plain, 0⟩ t 0) (hu : EndsAt nested ⟨.plain, 0⟩ u depth) :
    EndsAt nested ⟨.plain, 0⟩ (t ++ ':' :: u) depth := by
  obtain ⟨mode, hmode, halong⟩ := ht
  have hcolon : nextOutside nested 0 ':' = some ⟨.plain, 0⟩ := by
    cases nested <;> decide
  refine append_iff.mpr ⟨_, halong, cons_iff.mpr ⟨⟨.plain, 0⟩, ?_, hu⟩⟩
  rw [next_of_outside hmode (by decide)]
  exact hcolon

end Scan

/-- The first separator stands outside brackets, between the texts that it
divides. -/
theorem exists_of_splitTopOncePieces {target : Char} {depth : Nat} {ps : List Piece}
    {front back : Text} (h : splitTopOncePieces target depth ps = some (front, back)) :
    ∃ before behind, ps = before ++ .plain target :: behind ∧ front = textOf before
      ∧ back = textOf behind ∧ depthBehind depth before = 0
      ∧ hasTop target depth before = false := by
  induction ps generalizing depth front with
  | nil => cases h
  | cons p ps ih =>
      cases p with
      | plain c =>
          -- The text is divided here, or the character goes to the front.
          by_cases hc : c = target ∧ depth = 0
          · rw [splitTopOncePieces, if_pos hc] at h
            cases h
            exact ⟨[], ps, by rw [hc.1]; rfl, rfl, rfl, hc.2, rfl⟩
          · have hc' : (c == target && depth == 0) = false := by simpa using hc
            rw [splitTopOncePieces_plain hc'] at h
            obtain ⟨found, hfound, heq⟩ := Option.map_eq_some_iff.mp h
            cases heq
            obtain ⟨before, behind, rfl, hfront, hback, hdepth, htop⟩ := ih hfound
            refine ⟨.plain c :: before, behind, rfl, by rw [hfront]; rfl, hback, hdepth, ?_⟩
            rw [hasTop, hc', htop]
            rfl
      | string t =>
          rw [splitTopOncePieces_literal (by simp)] at h
          obtain ⟨found, hfound, heq⟩ := Option.map_eq_some_iff.mp h
          cases heq
          obtain ⟨before, behind, rfl, hfront, hback, hdepth, htop⟩ := ih hfound
          exact ⟨.string t :: before, behind, rfl, by rw [hfront]; rfl, hback, hdepth, htop⟩
      | comment t =>
          rw [splitTopOncePieces_literal (by simp)] at h
          obtain ⟨found, hfound, heq⟩ := Option.map_eq_some_iff.mp h
          cases heq
          obtain ⟨before, behind, rfl, hfront, hback, hdepth, htop⟩ := ih hfound
          exact ⟨.comment t :: before, behind, rfl, by rw [hfront]; rfl, hback, hdepth, htop⟩

/-- A text that is not divided has no separator outside brackets. -/
theorem hasTop_of_splitTopOncePieces {target : Char} {depth : Nat} {ps : List Piece}
    (h : splitTopOncePieces target depth ps = none) : hasTop target depth ps = false := by
  induction ps generalizing depth with
  | nil => rfl
  | cons p ps ih =>
      cases p with
      | plain c =>
          by_cases hc : c = target ∧ depth = 0
          · rw [splitTopOncePieces, if_pos hc] at h
            cases h
          · have hc' : (c == target && depth == 0) = false := by simpa using hc
            rw [splitTopOncePieces_plain hc', Option.map_eq_none_iff] at h
            rw [hasTop, hc', ih h]
            rfl
      | string t =>
          rw [splitTopOncePieces_literal (by simp), Option.map_eq_none_iff] at h
          exact ih h
      | comment t =>
          rw [splitTopOncePieces_literal (by simp), Option.map_eq_none_iff] at h
          exact ih h

/-- A text is cut between two pieces. -/
theorem pieces_of_splitTopOnce {target : Char} {t front back : Text}
    (h : splitTopOnce target t = some (front, back)) :
    pieces t = pieces front ++ .plain target :: pieces back ∧ depthBehind 0 (pieces front) = 0
      ∧ hasTop target 0 (pieces front) = false := by
  obtain ⟨before, behind, hps, rfl, rfl, hzero, htop⟩ := exists_of_splitTopOncePieces h
  have hrow := isRow_pieces t
  rw [hps] at hrow
  have hfront : pieces (textOf before) = before := hrow.front
  have hback : pieces (textOf behind) = behind := hrow.behind.tail
  rw [hfront, hback]
  exact ⟨hps, hzero, htop⟩

/-- The parts of a line on the two sides of its first colon. -/
theorem endsAt_of_splitTopOnce {nested : Bool} {depth : Nat} {t front back : Text}
    (ht : Scan.EndsAt nested ⟨.plain, 0⟩ t depth) (h : splitTopOnce ':' t = some (front, back)) :
    t = front ++ ':' :: back ∧ Scan.EndsAt nested ⟨.plain, 0⟩ front 0
      ∧ Scan.EndsAt nested ⟨.plain, 0⟩ back depth ∧ hasTop ':' 0 (pieces front) = false := by
  obtain ⟨hclosed, hpassed⟩ := (Scan.endsAt_iff t).mp ht
  obtain ⟨hps, hzero, htop⟩ := pieces_of_splitTopOnce h
  have htext := text_pieces t
  rw [hps, textOf_append, textOf_cons, text_pieces, text_pieces] at htext
  rw [hps, List.forall_mem_append, List.forall_mem_cons] at hclosed
  rw [hps, passed_append] at hpassed
  obtain ⟨d, hbefore, hrest⟩ := Option.bind_eq_some_iff.mp hpassed
  obtain rfl : d = 0 := (depthBehind_of_passed hbefore).symm.trans hzero
  obtain ⟨d', hcolon, hbehind⟩ := passed_cons.mp hrest
  -- So no bracket is open where the text behind the colon begins.
  obtain rfl : d' = 0 := by
    cases nested <;> exact (Option.some.inj hcolon).symm
  refine ⟨htext.symm, ?_, ?_, htop⟩
  · exact (Scan.endsAt_iff front).mpr ⟨hclosed.1, hbefore⟩
  · exact (Scan.endsAt_iff back).mpr ⟨hclosed.2.2, hbehind⟩

/-! ### Segments -/

namespace IsSegmentRow

variable {depth : Nat} {ps : List Piece}

/-- Going over a segment outside of literals. Inside a block it must have no
brace; at the top one may stand in brackets. -/
theorem endsAt (h : IsSegmentRow depth ps) {nested : Bool}
    (hnested : nested = true → braces '{' ps = 0) :
    Scan.EndsAt nested ⟨.plain, 0⟩ (textOf ps) depth := by
  rw [Scan.endsAt_iff, h.row]
  refine ⟨h.closed, ?_⟩
  cases nested with
  | false => exact h.passed
  | true => exact passed_nested (hnested rfl) h.passed

/-- No brace closes in a segment. -/
theorem braces_close (h : IsSegmentRow depth ps) : braces '}' ps = 0 :=
  braces_of_passed h.passed

/-- A trimmed segment is a line. -/
theorem isLine (h : IsSegmentRow depth ps) {nested : Bool}
    (hnested : nested = true → braces '{' ps = 0) :
    Text.IsLine nested depth (Text.trim (textOf ps)) := by
  refine ⟨Text.hasEnds_trim _, (h.endsAt hnested).trim, ?_⟩
  rw [← Bool.not_eq_true]
  intro hcomment
  -- A comment at its start would be the first piece that is no blank.
  obtain ⟨front, back, hfront, -, heq⟩ := Text.exists_eq_trim (textOf ps)
  obtain ⟨r, hr⟩ := List.isPrefixOf_iff_prefix.mp hcomment
  have hps := h.row
  unfold IsRow at hps
  rw [heq, ← hr, Text.pieces_gap hfront, List.append_assoc, List.cons_append, List.singleton_append,
    pieces_of_take? (Literal.take?_comment _)] at hps
  refine h.begun _ _ _ hps.symm ?_ _ rfl
  intro q hq
  obtain ⟨c, hc, rfl⟩ := List.mem_map.mp hq
  exact Text.blank_iff.mp hfront c hc

/-- A segment before a block is its header. -/
theorem isLine_header (h : IsSegmentRow depth ps) {nested : Bool}
    (hnested : nested = true → braces '{' ps = 0) :
    Text.IsLine nested depth (Text.collapse (textOf ps)) := by
  rw [← Text.collapse_trim]
  exact (h.isLine hnested).collapse

end IsSegmentRow

namespace Node

/-- A declaration or statement that is a line when it is written down. -/
def IsLine (nested : Bool) (depth : Nat) (n : Node) : Prop :=
  ∃ t, n.compact = t ++ [';'] ∧ n.needsSelector = true ∧ Text.IsLine nested depth t
    ∧ Text.beginsImport t = false

/-- A line is a node that has to stand in a rule. -/
theorem IsLine.needsSelector {nested : Bool} {depth : Nat} {n : Node} (h : n.IsLine nested depth) :
    n.needsSelector = true := by
  obtain ⟨t, -, hneeds, -⟩ := h
  exact hneeds

/-- A declaration or a statement as the parser leaves it, with `depth`
brackets open behind it. The parser has found the first colon of a
declaration, and none in a statement that could have been one. -/
inductive IsRead (nested : Bool) (depth : Nat) : Node → Prop where
  | declaration {name value : Text} (hname : Text.HasEnds name) (hvalue : Text.HasEnds value)
      (hfront : Scan.EndsAt nested ⟨.plain, 0⟩ name 0)
      (hback : Scan.EndsAt nested ⟨.plain, 0⟩ value depth)
      (hcolon : hasTop ':' 0 (pieces name) = false) (hat : name.head? ≠ some '@')
      (hcomment : Text.beginsComment name = false) : IsRead nested depth (.declaration name value)
  | statement {t : Text} (hline : Text.IsLine nested depth t) (hne : t ≠ [])
      (himport : Text.beginsImport t = false) (hat : t.head? = some '@' → Text.collapse t = t)
      (hcolon : t.head? ≠ some '@' → hasTop ':' 0 (pieces t) = false) :
      IsRead nested depth (.statement t)

namespace IsRead

variable {nested : Bool} {depth : Nat} {n : Node}

/-- Written down, it is a line. -/
theorem isLine (h : n.IsRead nested depth) : n.IsLine nested depth := by
  cases h with
  | statement hline hne himport hat hcolon => exact ⟨_, rfl, rfl, hline, himport⟩
  | @declaration name value hname hvalue hfront hback hcolon hat hcomment =>
      have hends : Text.HasEnds (name ++ [':']) := hname.concat (by decide)
      refine ⟨name ++ ':' :: value, by simp [compact], rfl, ⟨?_, ?_, ?_⟩, ?_⟩
      · by_cases hne : value = []
        · rw [hne]
          exact hends
        · simpa using hends.append hvalue (by simp) hne []
      · exact hfront.append_colon hback
      · exact Text.beginsComment_append_cons (u := []) (by rwa [List.append_nil]) (by decide)
          (by decide) _
      · refine Text.beginsImport_eq_false ?_
        cases name with
        | nil => simp
        | cons c name => exact hat

/-- So is what the parser leaves. -/
theorem needsSelector (h : n.IsRead nested depth) : n.needsSelector = true := h.isLine.needsSelector

/-- What is read inside a block could be read at the top. -/
theorem mono {nested' : Bool} (h : n.IsRead nested depth) (hle : nested' = true → nested = true) :
    n.IsRead nested' depth := by
  cases h with
  | statement hline hne himport hat hcolon => exact .statement (hline.mono hle) hne himport hat hcolon
  | declaration hname hvalue hfront hback hcolon hat hcomment =>
      exact .declaration hname hvalue (hfront.mono hle) (hback.mono hle) hcolon hat hcomment

end IsRead

/-- A line that is cut at its first colon and trimmed on both sides. -/
theorem isRead_declaration {nested : Bool} {depth : Nat} {t front back : Text}
    (ht : Text.IsLine nested depth t) (hat : t.head? ≠ some '@')
    (hsplit : splitTopOnce ':' t = some (front, back)) :
    IsRead nested depth (.declaration (Text.trim front) (Text.trim back)) := by
  obtain ⟨heq, hfront, hback, hcolon⟩ := endsAt_of_splitTopOnce ht.endsAt hsplit
  -- The line begins with its name: there are no blanks in front of that.
  obtain ⟨rest, hname⟩ : ∃ rest, t = Text.trim front ++ rest := by
    obtain ⟨gap, behind, hgap, -, hfronteq⟩ := Text.exists_eq_trim front
    cases gap with
    | nil =>
        have htrim : front = Text.trim front ++ behind := hfronteq
        exact ⟨behind ++ ':' :: back, by rw [heq, ← List.append_assoc, ← htrim]⟩
    | cons c gap =>
        have hhead := ht.head c (by rw [heq, hfronteq]; rfl)
        rw [Text.blank_iff.mp hgap c List.mem_cons_self] at hhead
        cases hhead
  refine .declaration (Text.hasEnds_trim front) (Text.hasEnds_trim back) hfront.trim hback.trim ?_ ?_ ?_
  · rw [hasTop_trim (by decide) ((Scan.endsAt_iff front).mp hfront).1, hcolon]
  · rw [hname] at hat
    cases hfirst : Text.trim front with
    | nil => simp
    | cons c name =>
        rw [hfirst] at hat
        exact hat
  · rw [← Bool.not_eq_true]
    intro hcomment
    have hline := ht.noComment
    have hopens := List.isPrefixOf_iff_prefix.mp hcomment
    rw [hname, Text.beginsComment,
      List.isPrefixOf_iff_prefix.mpr (hopens.trans (List.prefix_append _ _))] at hline
    cases hline

/-- What is read behind the keyword is an import, with collapsed media. -/
theorem exists_of_parseImport {t : Text} {n : Node} (h : parseImport t = .ok n) :
    ∃ url media, n = .importUrl url media ∧ Text.IsCollapsed media := by
  unfold parseImport at h
  dsimp only at h
  split at h
  · cases h
  · exact ⟨_, _, (Except.ok.inj h).symm, Text.isCollapsed_collapse _⟩

/-- What a trimmed segment is taken for. -/
inductive Taken (t : Text) : Option Node → Prop where
  | blank (hnil : t = []) : Taken t none
  | importUrl {r : Text} {n : Node} (hkeyword : Text.afterLetters? "@import".toList t = some r)
      (hn : parseImport r = .ok n) : Taken t (some n)
  | atStatement (himport : Text.beginsImport t = false) (hne : t ≠ []) (hat : t.head? = some '@') :
      Taken t (some (.statement (Text.collapse t)))
  | statement (himport : Text.beginsImport t = false) (hne : t ≠ []) (hat : t.head? ≠ some '@')
      (hsplit : splitTopOnce ':' t = none) : Taken t (some (.statement t))
  | declaration {front back : Text} (hat : t.head? ≠ some '@')
      (hsplit : splitTopOnce ':' t = some (front, back)) :
      Taken t (some (.declaration (Text.trim front) (Text.trim back)))

/-- Every segment is taken for one of these. -/
theorem taken_of_ofSegment {segment : Text} {node : Option Node} (h : ofSegment segment = .ok node) :
    Taken (Text.trim segment) node := by
  cases himport : Text.beginsImport (Text.trim segment) with
  | true =>
      obtain ⟨r, hr⟩ := Option.isSome_iff_exists.mp himport
      rw [ofSegment_keyword rfl hr] at h
      obtain ⟨n, hn, rfl⟩ := exists_of_map_ok h
      exact .importUrl hr hn
  | false =>
      by_cases hne : Text.trim segment = []
      · rw [ofSegment, hne] at h
        obtain rfl := Except.ok.inj h
        exact .blank hne
      · rw [ofSegment_eq rfl hne himport] at h
        obtain rfl := Except.ok.inj h
        split
        · exact .atStatement himport hne ‹_›
        · rename_i hat
          cases hsplit : splitTopOnce ':' (Text.trim segment) with
          | none => exact .statement himport hne hat hsplit
          | some found => exact .declaration hat hsplit

/-- What becomes of a segment: nothing if it is blank, an import, or a
line. -/
theorem ofSegment_cases {nested : Bool} {depth : Nat} {segment : Text} {node : Option Node}
    (hline : Text.IsLine nested depth (Text.trim segment)) (h : ofSegment segment = .ok node) :
    node = none ∨ (∃ url media, node = some (.importUrl url media) ∧ Text.IsCollapsed media)
      ∨ ∃ n, node = some n ∧ IsRead nested depth n := by
  cases taken_of_ofSegment h with
  | blank hnil => exact .inl rfl
  | importUrl hkeyword hn =>
      obtain ⟨url, media, rfl, hmedia⟩ := exists_of_parseImport hn
      exact .inr (.inl ⟨url, media, rfl, hmedia⟩)
  | atStatement himport hne hat =>
      have hcollapsed := Text.isCollapsed_collapse (Text.trim segment)
      refine .inr (.inr ⟨_, rfl, .statement hline.collapse ?_ ?_ (fun _ => hcollapsed.collapse_eq)
        fun hno => ?_⟩)
      · exact Text.collapse_ne_nil hline.toHasEnds hne
      · rw [Text.beginsImport_collapse hline.toHasEnds, himport]
      · rw [Text.head?_collapse hline.toHasEnds] at hno
        exact absurd hat hno
  | statement himport hne hat hsplit =>
      exact .inr (.inr ⟨_, rfl, .statement hline hne himport (fun h => absurd h hat)
        fun _ => hasTop_of_splitTopOncePieces hsplit⟩)
  | declaration hat hsplit => exact .inr (.inr ⟨_, rfl, isRead_declaration hline hat hsplit⟩)

/-! ### Blocks -/

/-- The nodes of a block, or of a whole stylesheet, as the parser leaves
them. -/
inductive Items : Bool → List Node → Prop where
  | nil (nested : Bool) : Items nested []
  | comment {nested : Bool} {t : Text} {rest : List Node} (halone : pieces t = [.comment t])
      (hclosed : (Piece.comment t).closed = true) (hrest : Items nested rest) :
      Items nested (.comment t :: rest)
  | importUrl {nested : Bool} {url media : Text} {rest : List Node} (hmedia : Text.IsCollapsed media)
      (hrest : Items nested rest) : Items nested (.importUrl url media :: rest)
  | line {nested : Bool} {n : Node} {rest : List Node} (hn : n.IsRead nested 0)
      (hrest : Items nested rest) : Items nested (n :: rest)
  /-- Brackets may be left open in the last line. -/
  | last {nested : Bool} {n : Node} {depth : Nat} (hn : n.IsRead nested depth) : Items nested [n]
  | rule {nested : Bool} {header : Text} {children rest : List Node}
      (hheader : Text.IsLine nested 0 header) (hcollapsed : Text.IsCollapsed header)
      (hchildren : Items true children) (hrest : Items nested rest) :
      Items nested (.rule header children :: rest)

namespace Items

variable {nested : Bool}

/-- The media of an import have no blanks at their ends. -/
theorem of_importUrl {url media : Text} {rest : List Node}
    (h : Items nested (.importUrl url media :: rest)) : Text.HasEnds media := by
  cases h with
  | importUrl hmedia hrest => exact hmedia.toHasEnds
  | line hn hrest => cases hn.needsSelector
  | last hn => cases hn.needsSelector

/-- The header of a rule is a line, and its nodes are in order. -/
theorem of_rule {header : Text} {children rest : List Node}
    (h : Items nested (.rule header children :: rest)) :
    Text.IsLine nested 0 header ∧ Items true children := by
  cases h with
  | rule hheader hcollapsed hchildren hrest => exact ⟨hheader, hchildren⟩
  | line hn hrest => cases hn.needsSelector
  | last hn => cases hn.needsSelector

/-- The nodes behind the first are in order. -/
theorem tail {n : Node} {rest : List Node} (h : Items nested (n :: rest)) : Items nested rest := by
  cases h with
  | last hn => exact .nil nested
  | _ => assumption

/-- What is in order inside a block is so at the top. -/
theorem mono {nested' : Bool} {nodes : List Node} (h : Items nested nodes)
    (hle : nested' = true → nested = true) : Items nested' nodes := by
  induction h with
  | nil nested => exact .nil nested'
  | comment halone hclosed hrest ih => exact .comment halone hclosed (ih hle)
  | importUrl hmedia hrest ih => exact .importUrl hmedia (ih hle)
  | line hn hrest ih => exact .line (hn.mono hle) (ih hle)
  | last hn => exact .last (hn.mono hle)
  | rule hheader hcollapsed hchildren hrest _ ih =>
      exact .rule (hheader.mono hle) hcollapsed hchildren (ih hle)

end Items

/-- A segment that a semicolon ends. -/
theorem Items.segment {nested : Bool} {segment : Text} {node : Option Node} {rest : List Node}
    (hline : Text.IsLine nested 0 (Text.trim segment)) (h : ofSegment segment = .ok node)
    (hrest : Items nested rest) : Items nested (node.toList ++ rest) := by
  rcases ofSegment_cases hline h with rfl | ⟨url, media, rfl, hmedia⟩ | ⟨n, rfl, hn⟩
  · exact hrest
  · exact .importUrl hmedia hrest
  · exact .line hn hrest

/-- The segment at the end of a block. -/
theorem Items.lastSegment {nested : Bool} {depth : Nat} {segment : Text} {node : Option Node}
    (hline : Text.IsLine nested depth (Text.trim segment)) (h : ofSegment segment = .ok node) :
    Items nested node.toList := by
  rcases ofSegment_cases hline h with rfl | ⟨url, media, rfl, hmedia⟩ | ⟨n, rfl, hn⟩
  · exact .nil nested
  · exact .importUrl hmedia (.nil nested)
  · exact .last hn

/-- What was found in some pieces. The braces that close something are not
more than those that open something, and the nodes are in order. If the
numbers are equal, there is no brace in any segment. -/
def Found (ps : List Piece) (nodes : List Node) : Prop :=
  braces '}' ps ≤ braces '{' ps ∧ ∀ nested : Bool,
    (nested = true → braces '{' ps = braces '}' ps) → Items nested nodes

namespace Found

variable {ps : List Piece} {nodes : List Node}

/-- The segment at the end. -/
theorem last {depth : Nat} {segment : List Piece} {node : Option Node}
    (hsegment : IsSegmentRow depth segment) (hnode : ofSegment (textOf segment) = .ok node) :
    Found segment node.toList := by
  have hclose := hsegment.braces_close
  refine ⟨by omega, fun nested hnested => .lastSegment (hsegment.isLine fun hin => ?_) hnode⟩
  rw [hnested hin, hclose]

/-- A comment is a node. -/
theorem comment {gap : List Piece} {t : Text} (hgap : ∀ p ∈ gap, p.isGap = true)
    (ht : Literal.IsClosedComment t) (h : Found ps nodes) :
    Found (gap ++ .comment t :: ps) (.comment t :: nodes) := by
  obtain ⟨hle, hitems⟩ := h
  have hbraces : ∀ c, isBlank c = false → braces c (gap ++ .comment t :: ps) = braces c ps := by
    intro c hc
    rw [braces_append, braces_cons, if_neg (by simp), Nat.add_zero, braces_gap hgap hc, Nat.zero_add]
  unfold Found
  rw [hbraces '{' (by decide), hbraces '}' (by decide)]
  refine ⟨hle, fun nested hnested => .comment ?_ ht.closed (hitems nested hnested)⟩
  have htake := ht.take? []
  rw [List.append_nil] at htake
  rw [pieces_of_take? htake, pieces]

/-- A semicolon ends the segment. -/
theorem semicolon {segment : List Piece} {node : Option Node} (hsegment : IsSegmentRow 0 segment)
    (hnode : ofSegment (textOf segment) = .ok node) (h : Found ps nodes) :
    Found (segment ++ .plain ';' :: ps) (node.toList ++ nodes) := by
  obtain ⟨hle, hitems⟩ := h
  have hclose := hsegment.braces_close
  unfold Found
  rw [braces_append, braces_append, braces_cons, braces_cons, if_neg (by simp), if_neg (by simp)]
  -- What is ahead closes no more than it opens, so an equal number leaves none for the segment.
  refine ⟨by omega, fun nested hnested => .segment (hsegment.isLine fun hin => ?_) hnode
    (hitems nested fun hin => ?_)⟩
  · have hequal := hnested hin
    omega
  · have hequal := hnested hin
    omega

/-- The segment is the header of a block. -/
theorem block {segment inside : List Piece} {children : List Node}
    (hsegment : IsSegmentRow 0 segment) (hbraces : braces '}' inside = braces '{' inside)
    (hinside : Found inside children) (h : Found ps nodes) :
    Found (segment ++ .plain '{' :: (inside ++ .plain '}' :: ps))
      (.rule (Text.collapse (textOf segment)) children :: nodes) := by
  obtain ⟨-, hchildren⟩ := hinside
  obtain ⟨hle, hitems⟩ := h
  have hclose := hsegment.braces_close
  unfold Found
  simp only [braces_cons, braces_append, if_pos, Piece.plain.injEq, (by decide : ¬ '{' = '}'),
    (by decide : ¬ '}' = '{'), if_false]
  -- The block takes as many braces of either kind, so what is left is balanced if all is.
  refine ⟨by omega, fun nested hnested => .rule ?_ (Text.isCollapsed_collapse _) ?_ ?_⟩
  · refine hsegment.isLine_header fun hin => ?_
    have hequal := hnested hin
    omega
  · exact hchildren true fun _ => hbraces.symm
  · refine hitems nested fun hin => ?_
    have hequal := hnested hin
    omega

end Found

/-- What was read from a text of closed literals is in order. -/
theorem items_of_parse {t : Text} {nodes : List Node} (hclosed : ∀ p ∈ pieces t, p.closed = true)
    (h : parse t = .ok nodes) : Items false nodes := by
  have hfound : Found (pieces t) nodes :=
    (reads_of_parse h).rowInduction (isRow_pieces t) hclosed .last .comment .semicolon .block
  exact hfound.2 false (by simp)

end Node

end Stylesheet
