import Stylesheet.Proofs.Literals
import Stylesheet.Proofs.Selectors

/-!
# How the parser gets over a text

The parser takes one piece at a time, and it has gone over a text in one
way only. `Reads` tells that way item by item: a comment behind blanks, a
segment with its semicolon, a segment with its block, and the segment at
the end. `reads_of_parse` says that a text that was parsed was read so.
What is shown for each of these four cases holds of everything that was
read.

A stretch of the pieces of a text is a row: read alone, it is the same
pieces (`IsRow.of_isInfix`). `Reads.rowInduction` is induction over what was
read from a text of closed literals.
-/

set_option autoImplicit false

namespace Stylesheet

/-! ### Literals before less text -/

namespace Literal

/-- A string ends in the same place if less follows it. -/
theorem takeString_of_isPrefix {q : Char} (hq : isQuote q = true) {t rest : Text}
    (hrest : rest <+: (takeString q t).2) :
    takeString q ((takeString q t).1 ++ rest) = ((takeString q t).1, rest) := by
  -- How the string ends: with the text, with a backslash at the end of the text, with its
  -- quote, or with its line. In the first two cases nothing can follow.
  rcases stringBody_cases q t with ht | ⟨body, rfl, hbody⟩ | ⟨body, c, after, rfl, hbody, rfl | rfl⟩
  · have htake : takeString q t = (t, []) := by
      simpa [takeString] using ht.takeString_append []
    rw [htake] at hrest ⊢
    obtain rfl := List.prefix_nil.mp hrest
    rw [List.append_nil]
    exact htake
  · have htake := hbody.takeString_append ['\\']
    rw [htake] at hrest ⊢
    obtain rfl := List.prefix_nil.mp hrest
    rw [List.append_nil]
    exact htake
  · rw [hbody.takeString_eq hq] at hrest ⊢
    rw [List.append_assoc]
    exact hbody.takeString_eq hq rest
  · -- The line feed stays outside, so it may be missing as well.
    rw [hbody.takeString_append, takeString_line] at hrest ⊢
    rw [List.append_nil, hbody.takeString_append]
    cases rest with
    | nil => rw [takeString, List.append_nil]
    | cons d rest =>
        obtain ⟨rfl, -⟩ := List.cons_prefix_cons.mp hrest
        rw [takeString_line, List.append_nil]

/-- A comment ends in the same place if less follows it. -/
theorem takeComment_of_isPrefix {t rest : Text} (hrest : rest <+: (takeComment t).2) :
    takeComment ((takeComment t).1 ++ rest) = ((takeComment t).1, rest) := by
  by_cases hend : (takeComment t).2 = []
  · have htext := takeComment_append t
    rw [hend, List.append_nil] at htext
    rw [hend] at hrest
    obtain rfl := List.prefix_nil.mp hrest
    rw [List.append_nil, htext]
    exact Prod.ext htext hend
  · have hclosed := endsComment_of_rest hend
    have halone := takeComment_inside hclosed
    rw [takeComment_append_of_ends (by rw [halone]; exact hclosed), halone]
    rfl

/-- The literal at the front of a text is the same if less follows it. -/
theorem take?_of_isPrefix {t rest rest' : Text} {p : Piece} (h : take? t = some (p, rest))
    (hrest : rest' <+: rest) : take? (p.text ++ rest') = some (p, rest') := by
  rcases take?_cases h with ⟨q, r, hq, rfl, rfl, rfl⟩ | ⟨r, rfl, rfl, rfl⟩
  · rw [Piece.text, List.cons_append, take?_quote hq, takeString_of_isPrefix hq hrest]
  · rw [Piece.text, List.cons_append, List.cons_append, take?_comment,
      takeComment_of_isPrefix hrest]

end Literal

/-! ### Rows of pieces -/

/-- The pieces are those of the text that they spell. -/
def IsRow (ps : List Piece) : Prop := pieces (textOf ps) = ps

/-- The pieces of a text are a row. -/
theorem isRow_pieces (t : Text) : IsRow (pieces t) := by
  rw [IsRow, text_pieces]

namespace IsRow

/-- The pieces behind the first are a row too. -/
theorem tail {p : Piece} {ps : List Piece} (h : IsRow (p :: ps)) : IsRow ps := by
  unfold IsRow at h
  cases ht : textOf (p :: ps) with
  | nil =>
      rw [ht, pieces] at h
      cases h
  | cons c r =>
      rw [ht] at h
      -- The first piece is taken off the text, and the others are the pieces of the rest.
      have hrest : ∀ rest, pieces rest = ps → IsRow ps := by
        rintro rest rfl
        exact isRow_pieces rest
      cases htake : Literal.take? (c :: r) with
      | none =>
          rw [pieces_of_plain htake] at h
          exact hrest r (List.cons.inj h).2
      | some found =>
          rw [pieces_of_take? htake] at h
          exact hrest found.2 (List.cons.inj h).2

/-- So are those behind any part. -/
theorem behind {ps qs : List Piece} (h : IsRow (ps ++ qs)) : IsRow qs := by
  induction ps with
  | nil => exact h
  | cons p ps ih => exact ih h.tail

/-- A character that stands alone opens no literal. -/
theorem take?_eq_none {c : Char} {ps : List Piece} (h : IsRow (.plain c :: ps)) :
    Literal.take? (c :: textOf ps) = none := by
  have hrow : pieces (c :: textOf ps) = .plain c :: ps := h
  cases htake : Literal.take? (c :: textOf ps) with
  | none => rfl
  | some found =>
      rw [pieces_of_take? htake] at hrow
      rcases Literal.take?_cases htake with ⟨q, r, -, -, hp, -⟩ | ⟨r, -, hp, -⟩
      · rw [hp] at hrow
        cases hrow
      · rw [hp] at hrow
        cases hrow

/-- A literal of a row is taken from its text. -/
theorem take?_eq_some {p : Piece} {ps : List Piece} (h : IsRow (p :: ps)) (hp : ∀ c, p ≠ .plain c) :
    Literal.take? (p.text ++ textOf ps) = some (p, textOf ps) := by
  have hrow : pieces (p.text ++ textOf ps) = p :: ps := h
  cases ht : p.text ++ textOf ps with
  | nil =>
      rw [ht, pieces] at hrow
      cases hrow
  | cons c r =>
      rw [ht] at hrow
      cases htake : Literal.take? (c :: r) with
      | none =>
          rw [pieces_of_plain htake] at hrow
          exact absurd (List.cons.inj hrow).1.symm (hp c)
      | some found =>
          obtain ⟨p', rest⟩ := found
          rw [pieces_of_take? htake] at hrow
          obtain ⟨rfl, hps⟩ := List.cons.inj hrow
          rw [← hps, text_pieces]

/-- A part at the front of a row is a row. Nothing has to be closed here: an
open literal ends where its line does or where the text does. -/
theorem front {ps qs : List Piece} (h : IsRow (ps ++ qs)) : IsRow ps := by
  induction ps with
  | nil => rw [IsRow, textOf_nil, pieces]
  | cons p ps ih =>
      have hrow : IsRow (p :: (ps ++ qs)) := h
      have hbehind : pieces (textOf ps) = ps := ih hrow.tail
      show pieces (p.text ++ textOf ps) = p :: ps
      by_cases hplain : ∃ c, p = .plain c
      · obtain ⟨c, rfl⟩ := hplain
        have hnone : Literal.take? (c :: textOf ps) = none := by
          have hnone := take?_eq_none hrow
          rw [Literal.take?_eq_none, textOf_append] at hnone
          rw [Literal.take?_eq_none]
          refine ⟨hnone.1, fun hc hstar => hnone.2 hc ?_⟩
          rw [List.head?_append, hstar]
          rfl
        rw [Piece.text, List.singleton_append, pieces_of_plain hnone, hbehind]
      · have htake := take?_eq_some hrow fun c hc => hplain ⟨c, hc⟩
        rw [textOf_append] at htake
        rw [pieces_of_take? (Literal.take?_of_isPrefix htake (List.prefix_append _ _)), hbehind]

/-- A stretch of a row is a row. -/
theorem of_isInfix {ps qs : List Piece} (h : IsRow qs) (hps : ps <:+: qs) : IsRow ps := by
  obtain ⟨front, back, rfl⟩ := hps
  exact IsRow.behind (IsRow.front h)

end IsRow

/-! ### Counting braces -/

/-- How many braces of one kind stand outside literals. -/
def braces (c : Char) (ps : List Piece) : Nat := ps.count (.plain c)

/-- Braces are counted part by part. -/
theorem braces_append (c : Char) (ps qs : List Piece) :
    braces c (ps ++ qs) = braces c ps + braces c qs :=
  List.count_append

/-- One piece and then the others. -/
theorem braces_cons (c : Char) (p : Piece) (ps : List Piece) :
    braces c (p :: ps) = braces c ps + if p = .plain c then 1 else 0 := by
  rw [braces, List.count_cons]
  simp [braces]

/-- There is no brace among blanks. -/
theorem braces_gap {c : Char} {ps : List Piece} (h : ∀ p ∈ ps, p.isGap = true)
    (hc : isBlank c = false) : braces c ps = 0 := by
  refine List.count_eq_zero.mpr fun hmem => ?_
  have hgap : isBlank c = true := h _ hmem
  rw [hc] at hgap
  cases hgap

/-- A segment has no closing brace. -/
theorem braces_of_passed {nested : Bool} {depth depth' : Nat} {ps : List Piece}
    (h : passed nested depth ps = some depth') : braces '}' ps = 0 := by
  induction ps generalizing depth with
  | nil => rfl
  | cons p ps ih =>
      obtain ⟨d, hp, hps⟩ := passed_cons.mp h
      rw [braces_cons, ih hps, if_neg]
      rintro rfl
      cases hp

/-- A search for a closing brace passes over as many braces of each kind
as it has to. -/
theorem braces_of_closePieces? {depth : Nat} {ps inside rest : List Piece}
    (h : Delimiter.brace.closePieces? (depth + 1) ps = some (inside, rest)) :
    braces '}' inside = braces '{' inside + depth := by
  have hcount : depth + braces '{' inside = braces '}' inside := Delimiter.count_of_closePieces? h
  omega

/-- A block has as many braces of either kind inside. -/
theorem exists_block_of_closePieces? {ps inside rest : List Piece}
    (h : Delimiter.brace.closePieces? 0 (.plain '{' :: ps) = some (inside, rest)) :
    ps = inside.drop 1 ++ .plain '}' :: rest
      ∧ braces '}' (inside.drop 1) = braces '{' (inside.drop 1) := by
  rw [closePieces?_open] at h
  obtain ⟨⟨inside', rest'⟩, hfound, heq⟩ := Option.map_eq_some_iff.mp h
  cases heq
  exact ⟨Delimiter.closePieces?_eq hfound, braces_of_closePieces? hfound⟩

/-- Pieces without an opening brace belong to a segment inside a block as
well. -/
theorem passed_nested {depth depth' : Nat} {ps : List Piece} (hbraces : braces '{' ps = 0)
    (h : passed false depth ps = some depth') : passed true depth ps = some depth' := by
  induction ps generalizing depth with
  | nil => exact h
  | cons p ps ih =>
      rw [braces_cons] at hbraces
      obtain ⟨d, hp, hps⟩ := passed_cons.mp h
      refine passed_cons.mpr ⟨d, ?_, ih (by omega) hps⟩
      have hopen : p ≠ .plain '{' := by
        intro hopen
        rw [if_pos hopen] at hbraces
        omega
      cases p with
      | plain c =>
          have hc : (c == '{') = false := by simpa using hopen
          simpa [Piece.passed, endsSegment, hc] using hp
      | string t => exact hp
      | comment t => exact hp

/-! ### Steps of the parser -/

/-- Before the first piece that is no blank there is no comment: there it
would be a node of its own. -/
def Begun (ps : List Piece) : Prop :=
  ∀ gap p rest, ps = gap ++ p :: rest → (∀ q ∈ gap, q.isGap = true) → ∀ t, p ≠ .comment t

/-- Nothing stands before. -/
theorem Begun.nil : Begun [] := by
  intro gap p rest h
  simp at h

/-- One piece more, which may be a comment if the segment is not blank. -/
theorem Begun.concat {ps : List Piece} (h : Begun ps) {p : Piece}
    (hp : Text.blank (textOf ps) = true → ∀ t, p ≠ .comment t) : Begun (ps ++ [p]) := by
  intro gap q rest heq hgap
  rcases List.eq_nil_or_concat rest with rfl | ⟨rest, r, rfl⟩
  · -- The new piece is the first that is no blank.
    obtain ⟨rfl, hq⟩ := List.append_inj' heq rfl
    obtain rfl : p = q := by simpa using hq
    exact hp (blank_textOf hgap)
  · rw [List.concat_eq_append, ← List.cons_append, ← List.append_assoc] at heq
    exact h gap q rest (List.append_inj' heq rfl).1 hgap

/-- Blanks open no bracket. -/
theorem passed_of_blank {ps : List Piece} (h : Text.blank (textOf ps) = true) {nested : Bool}
    {depth : Nat} : passed nested depth ps = some depth := by
  induction ps with
  | nil => rfl
  | cons p ps ih =>
      rw [textOf_cons, Text.blank_append, Bool.and_eq_true] at h
      refine passed_cons.mpr ⟨depth, ?_, ih h.2⟩
      cases p with
      | plain c =>
          have hc : c ∉ Text.marks := Text.not_mem_marks (by simpa [Piece.text, Text.blank] using h.1)
          exact Piece.passed_plain.mpr
            ⟨Text.endsSegment_of_not_mem hc nested depth, Text.bracketDepth_of_not_mem hc depth⟩
      | string t => rfl
      | comment t => rfl

namespace Node

/-- A result that was mapped comes from one that was there. -/
theorem exists_of_map_ok {ε α β : Type} {f : α → β} {x : Except ε α} {b : β}
    (h : x.map f = .ok b) : ∃ a, x = .ok a ∧ b = f a := by
  cases x with
  | error e => cases h
  | ok a => exact ⟨a, rfl, (Except.ok.inj h).symm⟩

/-- How the parser gets over a block: it looks for the closing brace, and
reads what is inside on its own. -/
theorem exists_of_parsePieces_brace {seen segment : Text} {rest : List Piece} {nodes : List Node}
    (h : parsePieces seen 0 segment (.plain '{' :: rest) = .ok nodes) :
    ∃ inside after children nodes',
      Delimiter.brace.closePieces? 0 (.plain '{' :: rest) = some (inside, after)
      ∧ parsePieces [] 0 [] (inside.drop 1) = .ok children
      ∧ parsePieces ('}' :: ((textOf inside).reverse ++ seen)) 0 [] after = .ok nodes'
      ∧ nodes = .rule (Text.collapse segment.reverse) children :: nodes' := by
  cases hclose : Delimiter.brace.closePieces? 0 (.plain '{' :: rest) with
  | none =>
      rw [parsePieces_unclosed hclose] at h
      cases h
  | some found =>
      obtain ⟨inside, after⟩ := found
      -- What is inside has been read, since an error there would be an error of the whole.
      cases hchildren : parsePieces [] 0 [] (inside.drop 1) with
      | error e =>
          rw [parsePieces, if_pos ⟨rfl, rfl⟩] at h
          split at h
          · cases h
          · rename_i hclose'
            rw [hclose] at hclose'
            cases hclose'
            rw [hchildren] at h
            cases h
      | ok children =>
          rw [parsePieces_close hclose hchildren] at h
          obtain ⟨nodes', hafter, rfl⟩ := exists_of_map_ok h
          exact ⟨inside, after, children, nodes', rfl, hchildren, hafter, rfl⟩

/-- The same with the pieces inside the braces. How far the parser has come
behind the block is left open. -/
theorem exists_of_parsePieces_open {seen segment : Text} {rest : List Piece} {nodes : List Node}
    (h : parsePieces seen 0 segment (.plain '{' :: rest) = .ok nodes) :
    ∃ inside after children nodes' seen', rest = inside ++ .plain '}' :: after
      ∧ braces '}' inside = braces '{' inside
      ∧ parsePieces [] 0 [] inside = .ok children ∧ parsePieces seen' 0 [] after = .ok nodes'
      ∧ nodes = .rule (Text.collapse segment.reverse) children :: nodes' := by
  obtain ⟨inside, after, children, nodes', hclose, hchildren, hafter, hnodes⟩ :=
    exists_of_parsePieces_brace h
  obtain ⟨hrest, hbraces⟩ := exists_block_of_closePieces? hclose
  exact ⟨inside.drop 1, after, children, nodes', _, hrest, hbraces, hchildren, hafter, hnodes⟩

/-- How the parser gets over a semicolon. -/
theorem exists_of_parsePieces_semicolon {seen segment : Text} {rest : List Piece}
    {nodes : List Node} (h : parsePieces seen 0 segment (.plain ';' :: rest) = .ok nodes) :
    ∃ node nodes', ofSegment segment.reverse = .ok node
      ∧ parsePieces (';' :: seen) 0 [] rest = .ok nodes' ∧ nodes = node.toList ++ nodes' := by
  cases hnode : ofSegment segment.reverse with
  | error e =>
      rw [parsePieces, if_neg (by decide), if_pos ⟨rfl, rfl⟩, hnode] at h
      cases h
  | ok node =>
      rw [parsePieces_semicolon hnode] at h
      obtain ⟨nodes', hrest, rfl⟩ := exists_of_map_ok h
      exact ⟨node, nodes', rfl, hrest, rfl⟩

/-- The parser gets over a piece in one of two ways: the piece goes to the
segment, or the segment is over, and the piece is a comment behind blanks,
a semicolon or an opening brace. -/
theorem parsePieces_cases {seen segment : Text} {depth : Nat} {p : Piece} {rest : List Piece}
    {nodes : List Node} (h : parsePieces seen depth segment (p :: rest) = .ok nodes) :
    (∃ seen' depth', p.passed false depth = some depth'
        ∧ (Text.blank segment = true → ∀ t, p ≠ .comment t)
        ∧ parsePieces seen' depth' (p.text.reverse ++ segment) rest = .ok nodes)
      ∨ (Text.blank segment = true ∧ ∃ t, p = .comment t)
      ∨ (depth = 0 ∧ (p = .plain ';' ∨ p = .plain '{')) := by
  cases p with
  | string t =>
      rw [parsePieces_string] at h
      exact .inl ⟨_, depth, rfl, by simp, h⟩
  | comment t =>
      cases hblank : Text.blank segment with
      | true => exact .inr (.inl ⟨rfl, t, rfl⟩)
      | false =>
          rw [parsePieces_comment hblank] at h
          exact .inl ⟨_, depth, rfl, by simp, h⟩
  | plain c =>
      cases hends : endsSegment false depth c with
      | false =>
          rw [parsePieces_plain hends] at h
          exact .inl ⟨_, _, Piece.passed_plain.mpr ⟨hends, rfl⟩, by simp, h⟩
      | true =>
          -- A closing brace is an error here.
          have hclose : c ≠ '}' := by
            rintro rfl
            rw [parsePieces, if_neg (by simp), if_neg (by simp), if_pos rfl] at h
            cases h
          simp only [endsSegment, Bool.or_eq_true, Bool.and_eq_true, Bool.false_or, beq_iff_eq,
            hclose, false_or] at hends
          rcases hends with ⟨rfl, hdepth⟩ | ⟨rfl, hdepth⟩
          · exact .inr (.inr ⟨hdepth, .inr rfl⟩)
          · exact .inr (.inr ⟨hdepth, .inl rfl⟩)

/-! ### What was read -/

/-- Pieces that are gathered to a segment, with `depth` brackets open
behind them. -/
structure Gathered (depth : Nat) (ps : List Piece) : Prop where
  passed : passed false 0 ps = some depth
  begun : Begun ps

namespace Gathered

/-- Nothing has been gathered yet. -/
theorem nil : Gathered 0 [] := ⟨rfl, .nil⟩

/-- No bracket is open in a blank segment. -/
theorem depth_eq {depth : Nat} {ps : List Piece} (h : Gathered depth ps)
    (hblank : Text.blank (textOf ps) = true) : depth = 0 := by
  have hdepth := h.passed
  rw [passed_of_blank hblank] at hdepth
  exact (Option.some.inj hdepth).symm

/-- One piece more, which does not end the segment and is no comment at its
start. -/
theorem concat {depth depth' : Nat} {ps : List Piece} {p : Piece} (h : Gathered depth ps)
    (hp : p.passed false depth = some depth')
    (hcomment : Text.blank (textOf ps) = true → ∀ t, p ≠ .comment t) : Gathered depth' (ps ++ [p]) := by
  refine ⟨?_, h.begun.concat hcomment⟩
  rw [passed_append, h.passed]
  exact passed_cons.mpr ⟨depth', hp, rfl⟩

end Gathered

/-- How pieces are read as nodes. -/
inductive Reads : List Piece → List Node → Prop where
  | last {depth : Nat} {segment : List Piece} {node : Option Node} (hsegment : Gathered depth segment)
      (hnode : ofSegment (textOf segment) = .ok node) : Reads segment node.toList
  | comment {gap rest : List Piece} {nodes : List Node} (hgap : Text.blank (textOf gap) = true)
      (t : Text) (hrest : Reads rest nodes) : Reads (gap ++ .comment t :: rest) (.comment t :: nodes)
  | semicolon {segment rest : List Piece} {node : Option Node} {nodes : List Node}
      (hsegment : Gathered 0 segment) (hnode : ofSegment (textOf segment) = .ok node)
      (hrest : Reads rest nodes) : Reads (segment ++ .plain ';' :: rest) (node.toList ++ nodes)
  | block {segment inside rest : List Piece} {children nodes : List Node}
      (hsegment : Gathered 0 segment) (hbraces : braces '}' inside = braces '{' inside)
      (hinside : Reads inside children) (hrest : Reads rest nodes) :
      Reads (segment ++ .plain '{' :: (inside ++ .plain '}' :: rest))
        (.rule (Text.collapse (textOf segment)) children :: nodes)

/-- What the parser reads from the pieces ahead of it, with those of the
segment that it is in. -/
theorem reads_of_parsePieces {current ps : List Piece} {seen segment : Text} {depth : Nat}
    {nodes : List Node} (hcurrent : Gathered depth current)
    (hsegment : segment.reverse = textOf current)
    (h : parsePieces seen depth segment ps = .ok nodes) : Reads (current ++ ps) nodes := by
  -- A block is read apart from what follows it, so the induction is on the number of pieces.
  induction hn : ps.length using Nat.strongRecOn generalizing ps current seen segment depth nodes with
  | ind n ih =>
      -- Where a segment begins, there is nothing of it yet.
      have hfresh : ∀ {qs : List Piece} {seen' : Text} {nodes' : List Node}, qs.length < n →
          parsePieces seen' 0 [] qs = .ok nodes' → Reads qs nodes' := by
        intro qs seen' nodes' hlt hparse
        exact ih qs.length hlt .nil rfl hparse rfl
      cases ps with
      | nil =>
          rw [parsePieces, hsegment] at h
          rw [List.append_nil]
          cases hnode : ofSegment (textOf current) with
          | error e =>
              rw [hnode] at h
              cases h
          | ok node =>
              rw [hnode] at h
              obtain rfl := Except.ok.inj h
              exact .last hcurrent hnode
      | cons p rest =>
          have hlength : rest.length < n := by
            rw [← hn]
            exact Nat.lt_succ_self _
          have hblank : Text.blank (textOf current) = Text.blank segment := by
            rw [← hsegment, Text.blank_reverse]
          rcases parsePieces_cases h with ⟨seen', depth', hp, hcomment, hmoved⟩
            | ⟨hsegmentBlank, t, rfl⟩ | ⟨rfl, rfl | rfl⟩
          · have hsegment' : (p.text.reverse ++ segment).reverse = textOf (current ++ [p]) := by
              simp [hsegment]
            have hnext := ih _ hlength (hcurrent.concat hp (by rwa [hblank])) hsegment' hmoved rfl
            simpa using hnext
          · obtain rfl := hcurrent.depth_eq (hblank.trans hsegmentBlank)
            rw [parsePieces_comment_node hsegmentBlank] at h
            obtain ⟨nodes', hparse, rfl⟩ := exists_of_map_ok h
            exact .comment (hblank.trans hsegmentBlank) t (hfresh hlength hparse)
          · obtain ⟨node, nodes', hnode, hparse, rfl⟩ := exists_of_parsePieces_semicolon h
            rw [hsegment] at hnode
            exact .semicolon hcurrent hnode (hfresh hlength hparse)
          · obtain ⟨inside, after, children, nodes', seen', rfl, hbraces, hchildren, hafter, rfl⟩ :=
              exists_of_parsePieces_open h
            rw [List.length_append, List.length_cons] at hlength
            rw [hsegment]
            exact .block hcurrent hbraces (hfresh (by omega) hchildren) (hfresh (by omega) hafter)

/-- All of a text, with nothing gathered at its start. -/
theorem reads_of_parse {t : Text} {nodes : List Node} (h : parse t = .ok nodes) :
    Reads (pieces t) nodes :=
  reads_of_parsePieces .nil rfl h

end Node

/-! ### Rows -/

/-- The pieces of a segment, with `depth` brackets open behind them. -/
structure IsSegmentRow (depth : Nat) (ps : List Piece) : Prop extends Node.Gathered depth ps where
  row : IsRow ps
  closed : ∀ p ∈ ps, p.closed = true

/-- In a row, blank pieces are blanks. -/
theorem isGap_of_blank {ps : List Piece} (hrow : IsRow ps)
    (hblank : Text.blank (textOf ps) = true) : ∀ p ∈ ps, p.isGap = true := by
  intro p hp
  have hpieces := Text.pieces_blank hblank
  rw [hrow] at hpieces
  rw [hpieces] at hp
  obtain ⟨c, hc, rfl⟩ := List.mem_map.mp hp
  exact Text.blank_iff.mp hblank c hc

/-! ### Trimmed texts -/

/-- A piece that is no blank does not end with one. -/
theorem getLast?_of_closed {t : Text} {p : Piece} (hp : p ∈ pieces t) (hclosed : p.closed = true)
    (hgap : p.isGap = false) : ∃ c, p.text.getLast? = some c ∧ isBlank c = false := by
  rcases mem_pieces_closed hp hclosed with ⟨c, rfl⟩ | ⟨s, rfl, q, body, hq, rfl, -⟩
    | ⟨s, rfl, body, rfl, -⟩
  · exact ⟨c, rfl, hgap⟩
  · refine ⟨q, ?_, ?_⟩
    · rw [Piece.text, List.getLast?_cons_of_ne_nil (by simp), List.getLast?_concat]
    · rw [← Bool.not_eq_true]
      intro hblank
      rw [Text.isQuote_eq_false hblank] at hq
      cases hq
  · refine ⟨'/', ?_, by decide⟩
    rw [Piece.text, List.getLast?_cons_of_ne_nil (by simp), List.getLast?_cons_of_ne_nil (by simp),
      List.getLast?_concat]

/-- A row of blanks is its text. -/
theorem map_plain_textOf {ps : List Piece} (h : ∀ p ∈ ps, p.isGap = true) :
    (textOf ps).map .plain = ps := by
  induction ps with
  | nil => rfl
  | cons p ps ih =>
      obtain ⟨hp, hps⟩ := List.forall_mem_cons.mp h
      cases p with
      | plain c => exact congrArg _ (ih hps)
      | string t => cases hp
      | comment t => cases hp

/-- Blanks at the end of a text are pieces of their own. -/
theorem exists_trimEnd {t : Text} (hclosed : ∀ p ∈ pieces t, p.closed = true) :
    ∃ gap, t = Text.trimEnd t ++ gap ∧ Text.blank gap = true
      ∧ pieces t = pieces (Text.trimEnd t) ++ gap.map .plain
      ∧ ∀ c ∈ (Text.trimEnd t).getLast?, isBlank c = false := by
  -- The blank pieces at the end are taken off the row, and not blanks off the text, which could
  -- be those of a literal.
  obtain ⟨front, back, hsplit, hback, hlast⟩ : ∃ front back, pieces t = front ++ back
      ∧ (∀ p ∈ back, p.isGap = true) ∧ ∀ p ∈ front.getLast?, p.isGap = false := by
    refine ⟨(pieces t).rdropWhile Piece.isGap, (pieces t).rtakeWhile Piece.isGap,
      List.rdropWhile_append_rtakeWhile.symm, fun p hp => List.mem_rtakeWhile_imp hp, ?_⟩
    intro p hp
    obtain ⟨hne, rfl⟩ := List.mem_getLast?_eq_getLast hp
    rw [← Bool.not_eq_true]
    exact List.rdropWhile_last_not Piece.isGap _ hne
  have htext : t = textOf front ++ textOf back := by
    rw [← textOf_append, ← hsplit, text_pieces]
  have hfront : ∀ p ∈ front, p ∈ pieces t := fun p hp => by
    rw [hsplit]
    exact List.mem_append_left _ hp
  -- The last piece that is left is closed, so it does not end with a blank.
  have hends : ∀ c ∈ (textOf front).getLast?, isBlank c = false := by
    rcases List.eq_nil_or_concat front with rfl | ⟨init, p, rfl⟩
    · simp
    · have hp : p ∈ pieces t := hfront p (by simp)
      obtain ⟨c, hc, hblank⟩ := getLast?_of_closed hp (hclosed p hp) (hlast p (by simp))
      intro d hd
      have hne : p.text ≠ [] := by
        intro hnil
        rw [hnil] at hc
        cases hc
      rw [List.concat_eq_append, textOf_append, textOf_cons, textOf_nil, List.append_nil,
        List.getLast?_append_of_ne_nil _ hne, hc] at hd
      cases hd
      exact hblank
  have htrim : Text.trimEnd t = textOf front := by
    rw [htext, Text.trimEnd_append (blank_textOf hback), Text.trimEnd_eq_self hends]
  have hrow : IsRow front := by
    have hrow := isRow_pieces t
    rw [hsplit] at hrow
    exact hrow.front
  rw [htrim]
  refine ⟨textOf back, htext, blank_textOf hback, ?_, hends⟩
  rw [hrow, map_plain_textOf hback, hsplit]

/-- The pieces of a trimmed text are those between the blanks. -/
theorem exists_pieces_trim {t : Text} (hclosed : ∀ p ∈ pieces t, p.closed = true) :
    ∃ front back, Text.blank front = true ∧ Text.blank back = true
      ∧ pieces t = front.map .plain ++ (pieces (Text.trim t) ++ back.map .plain) := by
  have hfront : Text.blank (t.takeWhile isBlank) = true := List.all_takeWhile
  have hsplit : pieces t = (t.takeWhile isBlank).map .plain ++ pieces (Text.trimStart t) := by
    rw [← Text.pieces_gap hfront]
    exact congrArg pieces List.takeWhile_append_dropWhile.symm
  have hstart : ∀ p ∈ pieces (Text.trimStart t), p.closed = true := by
    intro p hp
    refine hclosed p ?_
    rw [hsplit]
    exact List.mem_append_right _ hp
  obtain ⟨back, -, hback, hpieces, -⟩ := exists_trimEnd hstart
  exact ⟨_, back, hfront, hback, by rw [hsplit, hpieces]; rfl⟩

/-- Blanks in front are no separators. -/
theorem hasTop_map_blank {target : Char} (htarget : isBlank target = false) {gap : Text}
    (hgap : Text.blank gap = true) (depth : Nat) (ps : List Piece) :
    hasTop target depth (gap.map .plain ++ ps) = hasTop target depth ps := by
  induction gap with
  | nil => rfl
  | cons c gap ih =>
      rw [Text.blank_iff, List.forall_mem_cons] at hgap
      have hc := Text.ne_of_isBlank hgap.1 htarget
      rw [List.map_cons, List.cons_append, hasTop,
        Text.bracketDepth_of_not_mem (Text.not_mem_marks hgap.1), ih (Text.blank_iff.mpr hgap.2)]
      simp [hc]

/-- Nor are those at the end. -/
theorem hasTop_append_blank {target : Char} (htarget : isBlank target = false) {gap : Text}
    (hgap : Text.blank gap = true) (depth : Nat) (ps : List Piece) :
    hasTop target depth (ps ++ gap.map .plain) = hasTop target depth ps := by
  induction ps generalizing depth with
  | nil =>
      have hnone := hasTop_map_blank htarget hgap depth []
      rw [List.append_nil] at hnone
      exact hnone
  | cons p ps ih =>
      cases p with
      | plain c => rw [List.cons_append, hasTop, hasTop, ih]
      | string t => exact ih depth
      | comment t => exact ih depth

/-- Blanks on both sides are no separators. -/
theorem hasTop_trim {target : Char} (htarget : isBlank target = false) {t : Text}
    (hclosed : ∀ p ∈ pieces t, p.closed = true) {depth : Nat} :
    hasTop target depth (pieces (Text.trim t)) = hasTop target depth (pieces t) := by
  obtain ⟨front, back, hfront, hback, hpieces⟩ := exists_pieces_trim hclosed
  rw [hpieces, hasTop_map_blank htarget hfront, hasTop_append_blank htarget hback]

/-! ### Induction -/

/-- Induction over what was read from a text of closed literals. -/
theorem Node.Reads.rowInduction {motive : List Piece → List Node → Prop} {ps : List Piece}
    {nodes : List Node} (h : Reads ps nodes) (hrow : IsRow ps)
    (hclosed : ∀ p ∈ ps, p.closed = true)
    (last : ∀ {depth : Nat} {segment : List Piece} {node : Option Node}, IsSegmentRow depth segment →
      ofSegment (textOf segment) = .ok node → motive segment node.toList)
    (comment : ∀ {gap rest : List Piece} {t : Text} {nodes : List Node}, (∀ p ∈ gap, p.isGap = true) →
      Literal.IsClosedComment t → motive rest nodes →
      motive (gap ++ .comment t :: rest) (.comment t :: nodes))
    (semicolon : ∀ {segment rest : List Piece} {node : Option Node} {nodes : List Node},
      IsSegmentRow 0 segment → ofSegment (textOf segment) = .ok node → motive rest nodes →
      motive (segment ++ .plain ';' :: rest) (node.toList ++ nodes))
    (block : ∀ {segment inside rest : List Piece} {children nodes : List Node},
      IsSegmentRow 0 segment → braces '}' inside = braces '{' inside → motive inside children →
      motive rest nodes → motive (segment ++ .plain '{' :: (inside ++ .plain '}' :: rest))
        (.rule (Text.collapse (textOf segment)) children :: nodes)) :
    motive ps nodes := by
  induction h with
  | last hsegment hnode => exact last ⟨hsegment, hrow, hclosed⟩ hnode
  -- In each case the parts of the row are rows, and closed like the whole.
  | @comment gap rest nodes hgap t hrest ih =>
      rw [List.forall_mem_append, List.forall_mem_cons] at hclosed
      obtain ⟨-, htClosed, hrestClosed⟩ := hclosed
      refine comment (isGap_of_blank hrow.front hgap) ?_ (ih hrow.behind.tail hrestClosed)
      have hmem : .comment t ∈ pieces (textOf (gap ++ .comment t :: rest)) := by
        rw [hrow]
        simp
      rcases mem_pieces_closed hmem htClosed with ⟨c, hc⟩ | ⟨s, hs, -⟩ | ⟨s, hs, hcomment⟩
      · cases hc
      · cases hs
      · cases hs
        exact hcomment
  | semicolon hsegment hnode hrest ih =>
      rw [List.forall_mem_append, List.forall_mem_cons] at hclosed
      exact semicolon ⟨hsegment, hrow.front, hclosed.1⟩ hnode
        (ih hrow.behind.tail hclosed.2.2)
  | block hsegment hbraces hinside hrest ihInside ihRest =>
      simp only [List.forall_mem_append, List.forall_mem_cons] at hclosed
      obtain ⟨hsegmentClosed, -, hinsideClosed, -, hrestClosed⟩ := hclosed
      have hbehind := hrow.behind.tail
      exact block ⟨hsegment, hrow.front, hsegmentClosed⟩ hbraces
        (ihInside hbehind.front hinsideClosed) (ihRest hbehind.behind.tail hrestClosed)

end Stylesheet
