import Stylesheet.Proofs.Clean

/-!
# Texts that are read as nodes

There are many ways to write a forest of nodes: blanks may stand between
the nodes, behind the colon of a declaration and before the brace of a
rule. `ReadsAs nodes t` says that `t` is one of them, wherever it stands
in a stylesheet: the parser, between two segments, goes over it, adds the
nodes, and is between two segments again. So texts may be set one after
the other (`ReadsAs.append`), and no printer has to be looked at here.
`FillsAs nodes t` says less: the text has to be the last in its block.

The parser works on pieces. First comes what the pieces of blanks,
comments and contained texts are, then what the parser does at one piece,
then what it does with all pieces of a segment (it moves them over), and
last the texts of which `ReadsAs` holds: blanks, a comment, a segment with
its semicolon, and a block behind its header.
-/

set_option autoImplicit false

namespace Stylesheet

namespace Text

/-! ### Clean texts -/

/-- A clean text has no blanks at its ends. -/
theorem IsClean.hasEnds {t : Text} (h : IsClean t) : HasEnds t :=
  (collapse_eq_self_iff.mp h.collapsed).toHasEnds

/-- A blank is none of the other characters. -/
theorem ne_of_isBlank {c d : Char} (hc : isBlank c = true) (hd : isBlank d = false) : c ≠ d := by
  rintro rfl
  rw [hc] at hd
  cases hd

/-- A blank is no quote. -/
theorem isQuote_eq_false {c : Char} (hc : isBlank c = true) : isQuote c = false := by
  simp [isQuote, apostrophe, ne_of_isBlank hc (d := '"') (by decide),
    ne_of_isBlank hc (d := '\x27') (by decide)]

/-- The pieces of blanks in front of a text. -/
theorem pieces_gap {gap : Text} (hgap : blank gap = true) (t : Text) :
    pieces (gap ++ t) = gap.map .plain ++ pieces t := by
  induction gap with
  | nil => rfl
  | cons c gap ih =>
      rw [blank_iff, List.forall_mem_cons] at hgap
      have hslash := ne_of_isBlank hgap.1 (d := '/') (by decide)
      rw [List.cons_append, pieces_cons (isQuote_eq_false hgap.1) hslash, ih (blank_iff.mpr hgap.2)]
      rfl

/-- The pieces of a blank text are its characters. -/
theorem pieces_blank {t : Text} (ht : blank t = true) : pieces t = t.map .plain := by
  simpa [pieces] using pieces_gap ht []

/-! ### Contained texts -/

/-- The characters that mean something to a scanner. -/
def marks : List Char := ['"', apostrophe, '/', '(', ')', '[', ']', '{', '}', ';']

/-- A blank means nothing to a scanner. -/
theorem not_mem_marks {c : Char} (hc : isBlank c = true) : c ∉ marks := by
  have hmarks : ∀ d ∈ marks, isBlank d = false := by
    simpa using (by decide : marks.all (fun d => isBlank d == false) = true)
  intro hmem
  exact ne_of_isBlank hc (hmarks c hmem) rfl

/-- Any other character leaves the brackets as they are. -/
theorem openBehind_of_not_mem {c : Char} (hc : c ∉ marks) (depth : Nat) :
    (Piece.plain c).openBehind depth = some depth := by
  have hne : ∀ d ∈ marks, c ≠ d := fun d hd h => hc (h ▸ hd)
  simp [Piece.openBehind, Node.bracketDepth, hne '(' (by decide), hne ')' (by decide),
    hne '[' (by decide), hne ']' (by decide)]

/-- To the parser it leaves them as they are too. -/
theorem bracketDepth_of_not_mem {c : Char} (hc : c ∉ marks) (depth : Nat) :
    Node.bracketDepth depth c = depth :=
  (Piece.eq_of_openBehind_plain (openBehind_of_not_mem hc depth)).symm

/-- It ends no segment either. -/
theorem endsSegment_of_not_mem {c : Char} (hc : c ∉ marks) (nested : Bool) (depth : Nat) :
    endsSegment nested depth c = false := by
  have hne : ∀ d ∈ marks, c ≠ d := fun d hd h => hc (h ▸ hd)
  simp [endsSegment, hne '{' (by decide), hne '}' (by decide), hne ';' (by decide)]

/-- The empty text is contained. -/
theorem IsContained.nil : IsContained [] := by decide +kernel

/-- A character that means nothing may stand in front. -/
theorem IsContained.cons {c : Char} (hc : c ∉ marks) {t : Text} (ht : IsContained t) :
    IsContained (c :: t) := by
  have hne : ∀ d ∈ marks, c ≠ d := fun d hd h => hc (h ▸ hd)
  have hquote : isQuote c = false := by
    simp [isQuote, hne '"' (by decide), hne apostrophe (by decide)]
  have hpieces := pieces_cons hquote (hne '/' (by decide)) t
  refine ⟨?_, ?_, ?_⟩
  · rw [hpieces, List.forall_mem_cons]
    exact ⟨rfl, ht.closed⟩
  · rw [hpieces, openBehind_cons]
    exact ⟨0, openBehind_of_not_mem hc 0, ht.balanced⟩
  · rw [hpieces, List.forall_mem_cons]
    refine ⟨?_, ht.inert⟩
    simp [hne '{' (by decide), hne '}' (by decide), hne ';' (by decide)]

/-- Blanks may stand in front. -/
theorem IsContained.gap {gap : Text} (hgap : blank gap = true) {t : Text} (ht : IsContained t) :
    IsContained (gap ++ t) := by
  induction gap with
  | nil => exact ht
  | cons c gap ih =>
      rw [blank_iff, List.forall_mem_cons] at hgap
      exact .cons (not_mem_marks hgap.1) (ih (blank_iff.mpr hgap.2))

/-- A contained text does not close a block that it is in. -/
theorem IsContained.neutral {t : Text} (h : IsContained t) : BraceNeutral (pieces t) :=
  .of_forall fun p hp => ⟨(h.inert p hp).1, (h.inert p hp).2.1⟩

/-- Contained texts may stand one behind the other, unless a slash and a star
come together and begin a comment. -/
theorem IsContained.append {s t : Text} (hs : IsContained s) (ht : IsContained t)
    (hstar : (pieces s).getLast? = some (.plain '/') → t.head? ≠ some '*') :
    IsContained (s ++ t) := by
  have hpieces := pieces_append hs.closed hstar
  refine ⟨?_, ?_, ?_⟩
  · rw [hpieces, List.forall_mem_append]
    exact ⟨hs.closed, ht.closed⟩
  · rw [hpieces, openBehind_append, hs.balanced]
    exact ht.balanced
  · rw [hpieces, List.forall_mem_append]
    exact ⟨hs.inert, ht.inert⟩

/-! ### Comments -/

/-- A comment ends at its first closing mark. -/
theorem takeComment_eq {body : Text} (h : ¬ ['*', '/'] <:+: body ++ ['*']) :
    Literal.takeComment (body ++ ['*', '/']) = (body ++ ['*', '/'], []) := by
  induction body with
  | nil => simp [Literal.takeComment]
  | cons c body ih =>
      have htail := ih fun hfound => h (hfound.trans (List.suffix_cons c _).isInfix)
      cases body with
      | nil => simp [Literal.takeComment]
      | cons d body =>
          -- A closing mark here would be one inside the comment.
          have hmark : (c == '*' && d == '/') = false := by
            rw [Bool.and_eq_false_iff, beq_eq_false_iff_ne, beq_eq_false_iff_ne]
            by_contra hcd
            obtain ⟨rfl, rfl⟩ : c = '*' ∧ d = '/' := by simpa [not_or] using hcd
            exact h (List.IsPrefix.isInfix ⟨body ++ ['*'], rfl⟩)
          rw [List.cons_append] at htail
          simp [Literal.takeComment, hmark, htail]

/-- A comment is one piece. -/
theorem IsComment.pieces_eq {t : Text} (h : IsComment t) : pieces t = [.comment t] := by
  obtain ⟨body, rfl, hbody⟩ := h
  have htake := Literal.take?_comment (body ++ ['*', '/'])
  rw [takeComment_eq hbody] at htake
  rw [pieces_of_take? htake, pieces]

/-- It is a closed one. -/
theorem IsComment.closed {t : Text} (h : IsComment t) : (Piece.comment t).closed = true := by
  obtain ⟨body, rfl, -⟩ := h
  exact List.isSuffixOf_iff_suffix.mpr (List.suffix_append _ _)

end Text

namespace Node

/-! ### Steps of the parser -/

/-- A plain character that ends no segment goes to the segment. -/
theorem parsePieces_plain {nested : Bool} {depth : Nat} {c : Char}
    (h : endsSegment nested depth c = false) (seen segment : Text) (ps : List Piece) :
    parsePieces seen depth segment (.plain c :: ps)
      = parsePieces (c :: seen) (bracketDepth depth c) (c :: segment) ps := by
  have hopen : ¬ (c = '{' ∧ depth = 0) := by
    rintro ⟨rfl, rfl⟩
    simp [endsSegment] at h
  have hend : ¬ (c = ';' ∧ depth = 0) := by
    rintro ⟨rfl, rfl⟩
    simp [endsSegment] at h
  have hclose : c ≠ '}' := by
    rintro rfl
    simp [endsSegment] at h
  rw [parsePieces, if_neg hopen, if_neg hend, if_neg hclose]

/-- A string goes to the segment, wherever it stands. -/
theorem parsePieces_string (t seen : Text) (depth : Nat) (segment : Text) (ps : List Piece) :
    parsePieces seen depth segment (.string t :: ps)
      = parsePieces (t.reverse ++ seen) depth (t.reverse ++ segment) ps := by
  rw [parsePieces]

/-- Inside a segment a comment is part of it. -/
theorem parsePieces_comment {segment : Text} (hsegment : Text.blank segment = false)
    (t seen : Text) (depth : Nat) (ps : List Piece) :
    parsePieces seen depth segment (.comment t :: ps)
      = parsePieces (t.reverse ++ seen) depth (t.reverse ++ segment) ps := by
  rw [parsePieces, if_neg (by simp [hsegment])]

/-- At the start of a segment a comment is a node. -/
theorem parsePieces_comment_node {segment : Text} (hsegment : Text.blank segment = true)
    (t seen : Text) (depth : Nat) (ps : List Piece) :
    parsePieces seen depth segment (.comment t :: ps)
      = (parsePieces (t.reverse ++ seen) depth [] ps).map (.comment t :: ·) := by
  rw [parsePieces, if_pos hsegment]
  cases parsePieces (t.reverse ++ seen) depth [] ps <;> rfl

/-- A semicolon ends a segment. -/
theorem parsePieces_semicolon {segment : Text} {node : Option Node}
    (h : ofSegment segment.reverse = .ok node) (seen : Text) (ps : List Piece) :
    parsePieces seen 0 segment (.plain ';' :: ps)
      = (parsePieces (';' :: seen) 0 [] ps).map (node.toList ++ ·) := by
  rw [parsePieces, if_neg (by decide), if_pos ⟨rfl, rfl⟩, h]
  cases parsePieces (';' :: seen) 0 [] ps <;> rfl

/-- A block is read on its own, and what stands before it is its
header. -/
theorem parsePieces_close {inside after ps : List Piece}
    (hclose : Delimiter.brace.closePieces? 0 (.plain '{' :: ps) = some (inside, after))
    {children : List Node} (hchildren : parsePieces [] 0 [] (inside.drop 1) = .ok children)
    (seen segment : Text) :
    parsePieces seen 0 segment (.plain '{' :: ps)
      = (parsePieces ('}' :: ((textOf inside).reverse ++ seen)) 0 [] after).map
          (.rule (Text.collapse segment.reverse) children :: ·) := by
  rw [parsePieces, if_pos ⟨rfl, rfl⟩]
  split
  · rename_i h
    rw [hclose] at h
    cases h
  · rename_i inside' after' h
    rw [hclose, Option.some.injEq, Prod.mk.injEq] at h
    obtain ⟨rfl, rfl⟩ := h
    rw [hchildren]
    cases parsePieces ('}' :: ((textOf inside).reverse ++ seen)) 0 [] after <;> rfl

/-- A brace that nothing closes is an error. -/
theorem parsePieces_unclosed {ps : List Piece}
    (h : Delimiter.brace.closePieces? 0 (.plain '{' :: ps) = none) (seen segment : Text) :
    parsePieces seen 0 segment (.plain '{' :: ps)
      = .error (.scan (.unclosed '{' (Text.size seen) (Text.newlines seen + 1))) := by
  rw [parsePieces, if_pos ⟨rfl, rfl⟩]
  split
  · rfl
  · rename_i hclose
    rw [h] at hclose
    cases hclose

/-- A block is read on its own. How far the parser has come matters for errors
only, so it is left open. -/
theorem parsePieces_block {inside : List Piece} (hneutral : BraceNeutral inside)
    {children : List Node} (hchildren : parsePieces [] 0 [] inside = .ok children)
    (seen segment : Text) (ps : List Piece) :
    ∃ seen', parsePieces seen 0 segment (.plain '{' :: (inside ++ .plain '}' :: ps))
      = (parsePieces seen' 0 [] ps).map (.rule (Text.collapse segment.reverse) children :: ·) :=
  ⟨_, parsePieces_close (closePieces?_block hneutral ps) hchildren seen segment⟩

/-- Nothing is made of a blank segment. -/
theorem ofSegment_blank {segment : Text} (h : Text.blank segment = true) :
    ofSegment segment = .ok none := by
  rw [ofSegment, Text.trim_eq_nil h]

/-! ### Runs of the parser over one text -/

/-- Blanks between nodes go to the segment. -/
theorem parsePieces_gap {gap : Text} (hgap : Text.blank gap = true) (seen : Text) (depth : Nat)
    (segment : Text) (ps : List Piece) :
    parsePieces seen depth segment (gap.map .plain ++ ps)
      = parsePieces (gap.reverse ++ seen) depth (gap.reverse ++ segment) ps := by
  induction gap generalizing seen segment with
  | nil => rfl
  | cons c gap ih =>
      rw [Text.blank_iff, List.forall_mem_cons] at hgap
      have hmarks : c ∉ Text.marks := Text.not_mem_marks hgap.1
      rw [List.map_cons, List.cons_append,
        parsePieces_plain (Text.endsSegment_of_not_mem hmarks false depth),
        Text.bracketDepth_of_not_mem hmarks, ih (Text.blank_iff.mpr hgap.2)]
      simp

/-- A segment takes all pieces up to the one that ends it. If nothing of
it has been seen yet, it has to begin with a character or string: there a
comment is a node. -/
theorem parsePieces_passed {nested : Bool} {ps : List Piece} {depth depth' : Nat}
    (hpassed : passed nested depth ps = some depth') {segment : Text}
    (hstart : Text.blank segment = true →
      ∀ p ∈ ps.head?, Text.blank p.text = false ∧ ∀ t, p ≠ .comment t)
    (seen : Text) (rest : List Piece) :
    parsePieces seen depth segment (ps ++ rest)
      = parsePieces ((textOf ps).reverse ++ seen) depth' ((textOf ps).reverse ++ segment) rest := by
  induction ps generalizing seen depth segment with
  | nil =>
      cases hpassed
      rfl
  | cons p ps ih =>
      obtain ⟨d, hp, hps⟩ := passed_cons.mp hpassed
      -- With its first piece the segment has begun.
      have hbegun : Text.blank (p.text.reverse ++ segment) = false := by
        rw [Text.blank_append, Text.blank_reverse, Bool.and_eq_false_iff]
        cases hsegment : Text.blank segment with
        | false => exact .inr rfl
        | true => exact .inl (hstart hsegment p rfl).1
      have htail := fun seen => ih hps (fun h => by rw [hbegun] at h; cases h) seen
      rw [List.cons_append, textOf_cons, List.reverse_append, List.append_assoc, List.append_assoc]
      cases p with
      | plain c =>
          obtain ⟨hends, rfl⟩ := Piece.passed_plain.mp hp
          rw [parsePieces_plain hends]
          exact htail _
      | string t =>
          cases hp
          rw [parsePieces_string]
          exact htail _
      | comment t =>
          cases hp
          have hsegment : Text.blank segment = false := by
            rw [← Bool.not_eq_true]
            exact fun h => (hstart h _ rfl).2 t rfl
          rw [parsePieces_comment hsegment]
          exact htail _

end Node

/-! ### Segments -/

namespace Text

/-- A text that makes up a segment and leaves `depth` brackets open: it
does not end the segment, and it does not begin as a comment. -/
structure IsSegment (nested : Bool) (depth : Nat) (t : Text) : Prop where
  closed : ∀ p ∈ pieces t, p.closed = true
  passed : passed nested 0 (pieces t) = some depth
  head : ∀ c ∈ t.head?, isBlank c = false
  noComment : beginsComment t = false

section

variable {nested : Bool}

/-- A contained text is a segment if it does not begin with a blank or a
comment, which would not belong to it. -/
theorem IsContained.isSegment {t : Text} (h : IsContained t)
    (hhead : ∀ c ∈ t.head?, isBlank c = false) (hcomment : beginsComment t = false) :
    IsSegment nested 0 t :=
  ⟨h.closed, passed_of_openBehind nested h.inert h.balanced, hhead, hcomment⟩

/-- So is a clean one. -/
theorem IsClean.isSegment {t : Text} (h : IsClean t) (hcomment : beginsComment t = false) :
    IsSegment nested 0 t :=
  h.toIsContained.isSegment h.hasEnds.head hcomment

/-- Inside a block a segment has no braces. -/
theorem IsSegment.neutral {depth : Nat} {t : Text} (h : IsSegment nested depth t)
    (hnested : nested = true) : BraceNeutral (pieces t) := by
  subst hnested
  exact .of_passed h.passed

/-- A segment goes on with what does not end it. -/
theorem IsSegment.append {s t : Text} {depth : Nat} (hs : IsSegment nested 0 s) (hne : s ≠ [])
    (hclosed : ∀ p ∈ pieces t, p.closed = true)
    (hpassed : Stylesheet.passed nested 0 (pieces t) = some depth) (hstar : t.head? ≠ some '*') :
    IsSegment nested depth (s ++ t) := by
  have hpieces := pieces_append_of_head hs.closed hstar
  refine ⟨?_, ?_, ?_, ?_⟩
  · rw [hpieces, List.forall_mem_append]
    exact ⟨hs.closed, hclosed⟩
  · rw [hpieces, passed_append, hs.passed]
    exact hpassed
  · rw [List.head?_append_of_ne_nil _ hne]
    exact hs.head
  · have hcomment := hs.noComment
    match s with
    | [] => exact absurd rfl hne
    | c :: d :: s => exact hcomment
    | [c] =>
        -- A slash alone begins no comment, but with a star behind it it would.
        cases t with
        | nil => exact hcomment
        | cons d t =>
            have hd : d ≠ '*' := by simpa using hstar
            simp [beginsComment, List.isPrefixOf, Ne.symm hd]

/-- A segment goes on with a contained text. -/
theorem IsSegment.append_contained {s t : Text} (hs : IsSegment nested 0 s) (hne : s ≠ [])
    (ht : IsContained t) (hstar : t.head? ≠ some '*') : IsSegment nested 0 (s ++ t) :=
  hs.append hne ht.closed (passed_of_openBehind nested ht.inert ht.balanced) hstar

end

/-- A text that begins with no blank and no comment begins with another
character or with a string. -/
theorem head?_pieces {t : Text} (hhead : ∀ c ∈ t.head?, isBlank c = false)
    (hcomment : beginsComment t = false) :
    ∀ p ∈ (pieces t).head?, blank p.text = false ∧ ∀ c, p ≠ .comment c := by
  cases t with
  | nil =>
      intro p hp
      simp [pieces] at hp
  | cons c r =>
      have hc : ∀ s, blank (c :: s) = false := by simp [blank, hhead c rfl]
      intro p hp
      -- The first piece is the character itself, or a
      -- string that begins with it, but no comment.
      cases htake : Literal.take? (c :: r) with
      | none =>
          rw [pieces_of_plain htake] at hp
          cases hp
          exact ⟨hc [], by simp⟩
      | some found =>
          rw [pieces_of_take? htake] at hp
          cases hp
          rcases Literal.take?_cases htake with ⟨q, r', -, heq, hstring, -⟩ | ⟨r', heq, -⟩
          · obtain ⟨rfl, rfl⟩ := List.cons.inj heq
            rw [hstring]
            exact ⟨hc _, by simp⟩
          · simp [heq, beginsComment] at hcomment

end Text

namespace Node

/-- The parser goes over a segment as a whole. -/
theorem parsePieces_segment {nested : Bool} {depth : Nat} {t : Text}
    (h : Text.IsSegment nested depth t) (seen segment : Text) (rest : List Piece) :
    parsePieces seen 0 segment (pieces t ++ rest)
      = parsePieces (t.reverse ++ seen) depth (t.reverse ++ segment) rest := by
  have hrun : parsePieces seen 0 segment (pieces t ++ rest)
      = parsePieces ((textOf (pieces t)).reverse ++ seen) depth
          ((textOf (pieces t)).reverse ++ segment) rest :=
    parsePieces_passed h.passed (fun _ => Text.head?_pieces h.head h.noComment) seen rest
  rwa [text_pieces] at hrun

end Node

/-! ### Texts that are read as nodes -/

/-- The semicolon behind a text is a piece of its own. -/
theorem pieces_semicolon {t : Text} (hclosed : ∀ p ∈ pieces t, p.closed = true) :
    pieces (t ++ [';']) = pieces t ++ [.plain ';'] := by
  simpa [pieces] using pieces_append_cons hclosed (by decide) (by decide) (by decide) []

namespace Node

/-- A text is read as some nodes, whatever nodes stand before and behind
it. If it is not `nested`, it may have to stand outside blocks. -/
structure ReadsAs (nodes : List Node) (t : Text) (nested : Bool := true) : Prop where
  closed : ∀ p ∈ pieces t, p.closed = true
  /-- No comment begins with the end of the text. -/
  noSlash : (pieces t).getLast? ≠ some (.plain '/')
  /-- It does not close a block that it is in. -/
  neutral : nested = true → BraceNeutral (pieces t)
  /-- Between two segments, the parser adds the nodes and is between two
  segments again. -/
  run : ∀ (seen segment : Text) (rest : List Piece), Text.blank segment = true →
    ∃ seen' segment', Text.blank segment' = true
      ∧ parsePieces seen 0 segment (pieces t ++ rest)
        = (parsePieces seen' 0 segment' rest).map (nodes ++ ·)

/-- A text is read as some nodes if nothing follows it in its block. -/
structure FillsAs (nodes : List Node) (t : Text) (nested : Bool := true) : Prop where
  closed : ∀ p ∈ pieces t, p.closed = true
  neutral : nested = true → BraceNeutral (pieces t)
  run : ∀ seen segment : Text, Text.blank segment = true →
    parsePieces seen 0 segment (pieces t) = .ok nodes

namespace ReadsAs

variable {nested : Bool} {nodes : List Node}

/-- A text that is read by itself does not change the pieces behind it. -/
theorem pieces_append {t : Text} (h : ReadsAs nodes t nested) (s : Text) :
    pieces (t ++ s) = pieces t ++ pieces s :=
  Stylesheet.pieces_append h.closed fun hlast => absurd hlast h.noSlash

/-- Blanks. -/
theorem gap {t : Text} (ht : Text.blank t = true) : ReadsAs [] t nested := by
  have hpieces := Text.pieces_blank ht
  have hcontained : Text.IsContained t := by
    simpa using Text.IsContained.gap ht .nil
  refine ⟨hcontained.closed, ?_, fun _ => hcontained.neutral, ?_⟩
  · rw [hpieces]
    intro hlast
    obtain ⟨c, hc, hslash⟩ := List.mem_map.mp (List.mem_of_getLast? hlast)
    exact Text.ne_of_isBlank (Text.blank_iff.mp ht c hc) (by decide) (Piece.plain.inj hslash)
  · -- They go to the segment, which stays blank.
    intro seen segment rest hsegment
    refine ⟨t.reverse ++ seen, t.reverse ++ segment, ?_, ?_⟩
    · rw [Text.blank_append, Text.blank_reverse, ht, hsegment]
      rfl
    · rw [hpieces, parsePieces_gap ht]
      cases parsePieces (t.reverse ++ seen) 0 (t.reverse ++ segment) rest <;> rfl

/-- One text after the other. -/
theorem append {nodes' : List Node} {s t : Text} (hs : ReadsAs nodes s nested)
    (ht : ReadsAs nodes' t nested) : ReadsAs (nodes ++ nodes') (s ++ t) nested := by
  have hpieces := hs.pieces_append t
  refine ⟨?_, ?_, fun hnested => ?_, ?_⟩
  · intro p hp
    rw [hpieces] at hp
    rcases List.mem_append.mp hp with hp | hp
    · exact hs.closed p hp
    · exact ht.closed p hp
  · rw [hpieces, List.getLast?_append]
    -- The last piece of both is that of the second text, if it has one.
    intro hlast
    cases hlast' : (pieces t).getLast? with
    | none =>
        rw [hlast', Option.none_or] at hlast
        exact hs.noSlash hlast
    | some p =>
        rw [hlast', Option.some_or] at hlast
        exact ht.noSlash (hlast'.trans hlast)
  · rw [hpieces]
    exact (hs.neutral hnested).append (ht.neutral hnested)
  · -- Where the first text leaves the parser, the second one begins.
    intro seen segment rest hsegment
    obtain ⟨seen₁, segment₁, hsegment₁, hrun₁⟩ := hs.run seen segment (pieces t ++ rest) hsegment
    obtain ⟨seen₂, segment₂, hsegment₂, hrun₂⟩ := ht.run seen₁ segment₁ rest hsegment₁
    refine ⟨seen₂, segment₂, hsegment₂, ?_⟩
    rw [hpieces, List.append_assoc, hrun₁, hrun₂]
    cases parsePieces seen₂ 0 segment₂ rest with
    | error e => rfl
    | ok found => simp [Except.map]

/-- Before the rest of a block. -/
theorem append_fills {nodes' : List Node} {s t : Text} (hs : ReadsAs nodes s nested)
    (ht : FillsAs nodes' t nested) : FillsAs (nodes ++ nodes') (s ++ t) nested := by
  have hpieces := hs.pieces_append t
  refine ⟨?_, fun hnested => ?_, ?_⟩
  · rw [hpieces, List.forall_mem_append]
    exact ⟨hs.closed, ht.closed⟩
  · rw [hpieces]
    exact (hs.neutral hnested).append (ht.neutral hnested)
  · intro seen segment hsegment
    obtain ⟨seen', segment', hsegment', hrun⟩ := hs.run seen segment (pieces t) hsegment
    rw [hpieces, hrun, ht.run seen' segment' hsegment']
    rfl

/-- At the end of a block the segment is blank, and nothing is made of
it. -/
theorem fills {t : Text} (h : ReadsAs nodes t nested) : FillsAs nodes t nested := by
  refine ⟨h.closed, h.neutral, ?_⟩
  intro seen segment hsegment
  obtain ⟨seen', segment', hsegment', hrun⟩ := h.run seen segment [] hsegment
  rw [List.append_nil] at hrun
  rw [hrun, parsePieces, ofSegment_blank (by rwa [Text.blank_reverse])]
  simp [Except.map]

/-- A comment. -/
theorem comment {t : Text} (halone : pieces t = [.comment t])
    (hclosed : (Piece.comment t).closed = true) : ReadsAs [.comment t] t nested := by
  refine ⟨?_, ?_, fun _ => ?_, ?_⟩
  · rw [halone, List.forall_mem_singleton]
    exact hclosed
  · simp [halone]
  · exact BraceNeutral.of_forall (by simp [halone])
  · intro seen segment rest hsegment
    exact ⟨t.reverse ++ seen, [], rfl, by rw [halone]; exact parsePieces_comment_node hsegment ..⟩

/-- A segment with its semicolon. -/
theorem segment {node : Option Node} {t : Text} (ht : Text.IsSegment nested 0 t)
    (hnode : ∀ gap, Text.blank gap = true → ofSegment (gap ++ t) = .ok node) :
    ReadsAs node.toList (t ++ [';']) nested := by
  have hpieces := pieces_semicolon ht.closed
  refine ⟨?_, ?_, fun hnested => ?_, ?_⟩
  · rw [hpieces, List.forall_mem_append, List.forall_mem_singleton]
    exact ⟨ht.closed, rfl⟩
  · simp [hpieces]
  · rw [hpieces]
    exact (ht.neutral hnested).append (.of_forall (by simp))
  · intro seen segment rest hsegment
    -- The blanks before the line are still in the segment when the semicolon comes.
    have hsegment' : ofSegment (t.reverse ++ segment).reverse = .ok node := by
      rw [List.reverse_append, List.reverse_reverse]
      exact hnode _ (by rwa [Text.blank_reverse])
    refine ⟨';' :: (t.reverse ++ seen), [], rfl, ?_⟩
    rw [hpieces, List.append_assoc, parsePieces_segment ht, List.singleton_append,
      parsePieces_semicolon hsegment']

/-- A segment with its semicolon, if it makes up a node. -/
theorem line {n : Node} {t : Text} (ht : Text.IsSegment nested 0 t)
    (hnode : ∀ gap, Text.blank gap = true → ofSegment (gap ++ t) = .ok (some n)) :
    ReadsAs [n] (t ++ [';']) nested :=
  .segment ht hnode

/-- A block behind its header, with blanks between them. -/
theorem block {header gap inside : Text} {children : List Node}
    (hheader : Text.IsSegment nested 0 header) (hgap : Text.blank gap = true)
    (hinside : FillsAs children inside) :
    ReadsAs [.rule (Text.collapse header) children]
      (header ++ (gap ++ '{' :: (inside ++ ['}']))) nested := by
  have hpieces : pieces (header ++ (gap ++ '{' :: (inside ++ ['}'])))
      = pieces header ++ (gap.map .plain ++ .plain '{' :: (pieces inside ++ [.plain '}'])) := by
    have hstar : (gap ++ '{' :: (inside ++ ['}'])).head? ≠ some '*' := by
      cases gap with
      | nil => simp
      | cons c gap =>
          rw [Text.blank_iff] at hgap
          simpa using Text.ne_of_isBlank (hgap c List.mem_cons_self) (by decide)
    rw [pieces_append_of_head hheader.closed hstar, Text.pieces_gap hgap,
      pieces_cons (by decide) (by decide),
      pieces_append_cons hinside.closed (by decide) (by decide) (by decide), pieces]
  have hneutral : BraceNeutral (pieces inside) := hinside.neutral rfl
  have hgap' : ReadsAs [] gap nested := .gap hgap
  rw [← Text.pieces_blank hgap] at hpieces
  refine ⟨?_, ?_, fun hnested => ?_, ?_⟩
  · simp only [hpieces, List.forall_mem_append, List.forall_mem_cons]
    exact ⟨hheader.closed, hgap'.closed, rfl, hinside.closed, rfl, by simp⟩
  · simp [hpieces, List.getLast?_cons]
  · rw [hpieces]
    exact (hheader.neutral hnested).append ((hgap'.neutral hnested).append hneutral.block)
  · intro seen segment rest hblank
    -- The blanks on both sides of the header are lost when it is collapsed.
    have hname : Text.collapse (gap.reverse ++ (header.reverse ++ segment)).reverse
        = Text.collapse header := by
      rw [List.reverse_append, List.reverse_append, List.reverse_reverse, List.reverse_reverse,
        List.append_assoc, Text.collapse_gap (by rwa [Text.blank_reverse]) hgap]
    obtain ⟨seen', hblock⟩ := parsePieces_block hneutral (hinside.run [] [] rfl)
      (gap.reverse ++ (header.reverse ++ seen)) (gap.reverse ++ (header.reverse ++ segment)) rest
    refine ⟨seen', [], rfl, ?_⟩
    rw [hname] at hblock
    rw [hpieces, List.append_assoc, parsePieces_segment hheader, List.append_assoc,
      Text.pieces_blank hgap, parsePieces_gap hgap, List.cons_append, List.append_assoc,
      List.singleton_append, hblock]
    rfl

/-- A rule with a clean header. -/
theorem rule {header gap inside : Text} {children : List Node} (hheader : Text.IsClean header)
    (hcomment : Text.beginsComment header = false) (hgap : Text.blank gap = true)
    (hinside : ReadsAs children inside) :
    ReadsAs [.rule header children] (header ++ (gap ++ '{' :: (inside ++ ['}']))) nested := by
  have hblock : ReadsAs [.rule (Text.collapse header) children]
      (header ++ (gap ++ '{' :: (inside ++ ['}']))) nested :=
    .block (hheader.isSegment hcomment) hgap hinside.fills
  rwa [hheader.collapsed] at hblock

end ReadsAs

end Node

end Stylesheet
