import Stylesheet.Proofs.Compressed
import Stylesheet.Proofs.Imports
import Stylesheet.Proofs.ShortValues

/-!
# Compressed output is compressed already

Compressing a stylesheet a second time should change nothing. It may change
something: `format_format_changed` shows what is left to do in
`a{b:rgb(0px,0,0)}`, where the colour shows up when the unit is gone, and in
a comment that the second reader takes for a part of a value.

`format_format` says when nothing changes (`AllStay`). Values are settled:
dropping units brings up no colour and no other zero. Comments behind the
last declaration of a block, which are words of its value for the second
reader, have nothing in them that would be written short. Imports survive
being written between apostrophes, and no statement leaves a bracket open,
in which its semicolon would be lost. Everything else is free: headers,
names, comments in other places, brackets that are left open in the value
at the end of a block.

The proof reads the output again, item by item (`exists_again`). Each item is
what it was, in its short form, with one exception: the comments behind the
last declaration.
-/

set_option autoImplicit false

namespace Stylesheet

namespace Node

open Text

/-! ### Lines that are read again -/

/-- The last segment of a block needs no semicolon. -/
theorem FillsAs.segment {nested : Bool} {depth : Nat} {n : Node} {t : Text}
    (ht : IsSegment nested depth t)
    (hnode : ∀ gap, blank gap = true → ofSegment (gap ++ t) = .ok (some n)) :
    FillsAs [n] t nested := by
  refine ⟨ht.closed, ht.neutral, ?_⟩
  intro seen segment hsegment
  have hrun := parsePieces_segment ht seen segment []
  rw [List.append_nil] at hrun
  rw [hrun, parsePieces, List.reverse_append, List.reverse_reverse,
    hnode _ (by rwa [blank_reverse])]
  rfl

namespace IsRead

variable {nested : Bool} {depth : Nat}

/-- What was read as a line is read so again. -/
theorem exists_text {n : Node} (h : n.IsRead nested depth) :
    ∃ t, n.compact = t ++ [';'] ∧ IsSegment nested depth t
      ∧ ∀ gap, blank gap = true → ofSegment (gap ++ t) = .ok (some n) := by
  obtain ⟨t, ht, -, hline, -⟩ := h.isLine
  refine ⟨t, ht, hline.isSegment, fun gap hgap => ?_⟩
  cases h with
  | @declaration name value hname hvalue hfront hback hcolon hat hcomment =>
      obtain ⟨hclosed, hpassed⟩ := (Scan.endsAt_iff name).mp hfront
      have hblank : blank [] = true := rfl
      have hread := ofSegment_declaration hname hvalue hat hclosed hcolon (depthBehind_of_passed hpassed)
        hgap hblank
      have htext : name ++ ':' :: value ++ [';'] = t ++ [';'] := by
        rw [← ht]
        simp [compact]
      rw [← (List.append_inj' htext rfl).1]
      exact hread
  | @statement s hline' hne himport hat hcolon =>
      obtain rfl : s = t := (List.append_inj' ht rfl).1
      exact ofSegment_statement hline.toHasEnds hne himport hat hcolon hgap

/-- A line is read back before anything else. -/
theorem readsAs {n : Node} (h : n.IsRead nested 0) : ReadsAs [n] n.compact nested := by
  obtain ⟨t, ht, hsegment, hnode⟩ := h.exists_text
  rw [ht]
  exact .line hsegment hnode

/-- At the end of a block it is read back without its semicolon, also if it
leaves brackets open. -/
theorem fillsAs {n : Node} (h : n.IsRead nested depth) {t : Text} (ht : n.compact = t ++ [';']) :
    FillsAs [n] t nested := by
  obtain ⟨s, hs, hsegment, hnode⟩ := h.exists_text
  obtain rfl : s = t := (List.append_inj' (hs.symm.trans ht) rfl).1
  exact .segment hsegment hnode

/-- The value of a declaration that was read. -/
theorem value {name value : Text} (h : (Node.declaration name value).IsRead nested depth) :
    HasEnds value ∧ Scan.EndsAt nested ⟨.plain, 0⟩ value depth := by
  cases h with
  | declaration hname hvalue hfront hback hcolon hat hcomment => exact ⟨hvalue, hback⟩

/-- A declaration with another value. -/
theorem withValue {name value short : Text} (h : (Node.declaration name value).IsRead nested depth)
    {depth' : Nat} (hshort : Value.IsShort nested depth' short) :
    (Node.declaration name short).IsRead nested depth' := by
  cases h with
  | declaration hname hvalue hfront hback hcolon hat hcomment =>
      exact .declaration hname hshort.collapsed.toHasEnds hfront hshort.endsAt hcolon hat hcomment

/-- The brackets that a statement leaves open are those of its pieces. -/
theorem depth_eq {t : Text} (h : (Node.statement t).IsRead nested depth)
    (hdepth : depthBehind 0 (pieces t) = 0) : depth = 0 := by
  cases h with
  | statement hline hne himport hat hcolon =>
      exact (depthBehind_of_passed hline.isSegment.passed).symm.trans hdepth

/-- A collapsed statement is the same to the parser. -/
theorem collapse {t : Text} (h : (Node.statement t).IsRead nested depth) :
    (Node.statement (Text.collapse t)).IsRead nested depth := by
  cases h with
  | statement hline hne himport hat hcolon =>
      have hends := hline.toHasEnds
      refine .statement hline.collapse (collapse_ne_nil hends hne) ?_ ?_ ?_
      · rw [beginsImport_collapse hends, himport]
      · exact fun _ => (isCollapsed_collapse t).collapse_eq
      · intro hhead
        rw [head?_collapse hends] at hhead
        rw [(rowRespelled_collapse hends hline.isSegment.closed).hasTop_eq, hcolon hhead]

end IsRead

/-- Dropping blanks around the marks makes no comment of the beginning. -/
theorem beginsComment_tighten {around : List Char} (ha : around ⊆ tightMarks) {t : Text}
    (hclosed : ∀ p ∈ pieces t, p.closed = true) (h : beginsComment t = false) :
    beginsComment (tighten around t) = false := by
  have htight := tightened around hclosed
  generalize tighten around t = w at htight
  cases htight with
  | whole hclosed hmarks => exact h
  | mark hclosed' hmarks hlast hgap hm hgap' hhead hv =>
      obtain ⟨-, hslash, hstar, -⟩ := plain_of_mem_tightMarks (ha hm)
      exact beginsComment_append_cons h hslash hstar _

/-- A header whose blanks are dropped around some marks. -/
theorem isSegment_tighten {nested : Bool} {header : Text} (h : Text.IsLine nested 0 header)
    (hcollapsed : IsCollapsed header) : IsSegment nested 0 (tighten [',', '>'] header) := by
  have hmarks : [',', '>'] ⊆ tightMarks := by simp [tightMarks]
  have hclosed := h.isSegment.closed
  obtain ⟨htight, hpassed⟩ := (Scan.endsAt_iff _).mp (endsAt_tighten hmarks h.endsAt)
  exact ⟨htight, hpassed, (isCollapsed_tighten hmarks hclosed hcollapsed).head,
    beginsComment_tighten hmarks hclosed h.noComment⟩

/-! ### What stays -/

/-- The text of a comment. -/
def comment? : Node → Option Text
  | comment t => some t
  | _ => none

/-- Whether a node is a declaration. -/
def isDeclaration : Node → Bool
  | declaration _ _ => true
  | _ => false

/-- The comments among some nodes, if they are kept. -/
def keptComments (options : FormatOptions) (nodes : List Node) : List Text :=
  if options.preserveComments then nodes.filterMap comment? else []

mutual

/-- A node that is compressed once and for all. -/
def Stays (options : FormatOptions) (nested : Bool) : Node → Prop
  | comment _ => True
  | importUrl url media => Survives nested url media
  | declaration name value => Value.IsSettled options (Value.compress options name value)
  | statement t => depthBehind 0 (pieces t) = 0
  | rule _ children => AllStay options true children

/-- Nodes that are compressed once and for all. Comments that become a part
of a value have nothing in them that would be written short. -/
def AllStay (options : FormatOptions) (nested : Bool) : List Node → Prop
  | [] => True
  | n :: rest => n.Stays options nested ∧ AllStay options nested rest
    ∧ (n.isDeclaration = true → rest.all isComment = true →
      ∀ c ∈ keptComments options rest, Value.IsQuiet options c)

end

instance (options : FormatOptions) (t : Text) : Decidable (Value.IsSettled options t) :=
  inferInstanceAs (Decidable (_ → _))

instance (options : FormatOptions) (c : Text) : Decidable (Value.IsQuiet options c) :=
  decidable_of_iff (collapse c = c ∧ Value.coloured options c = c ∧ Value.unitless options c = c)
    ⟨fun ⟨hcollapsed, hcoloured, hunitless⟩ => ⟨hcollapsed, hcoloured, hunitless⟩,
      fun h => ⟨h.collapsed, h.coloured, h.unitless⟩⟩

mutual

/-- Whether a node stays can be computed, by recursion on the tree. -/
def decidableStays (options : FormatOptions) (nested : Bool) :
    (n : Node) → Decidable (n.Stays options nested)
  | comment _ => inferInstanceAs (Decidable True)
  | importUrl url media => inferInstanceAs (Decidable (Survives nested url media))
  | declaration name value =>
    inferInstanceAs (Decidable (Value.IsSettled options (Value.compress options name value)))
  | statement t => inferInstanceAs (Decidable (depthBehind 0 (pieces t) = 0))
  | rule _ children => decidableAllStay options true children

/-- The same for the nodes of a block. -/
def decidableAllStay (options : FormatOptions) (nested : Bool) :
    (nodes : List Node) → Decidable (AllStay options nested nodes)
  | [] => inferInstanceAs (Decidable True)
  | n :: rest =>
    haveI := decidableStays options nested n
    haveI := decidableAllStay options nested rest
    inferInstanceAs (Decidable (_ ∧ _ ∧ (_ → _ → _)))

end

instance (options : FormatOptions) (nested : Bool) (nodes : List Node) :
    Decidable (AllStay options nested nodes) :=
  decidableAllStay options nested nodes

/-! ### Comments at the end of a block -/

/-- Of comments, those that are kept are written one after the other. -/
theorem compressed_comments (options : FormatOptions) {nodes : List Node}
    (h : nodes.all isComment = true) :
    compressed options nodes = (keptComments options nodes).flatten := by
  induction nodes with
  | nil => cases hkept : options.preserveComments <;> simp [keptComments, hkept]
  | cons n rest ih =>
      rw [List.all_cons, Bool.and_eq_true] at h
      obtain ⟨t, rfl⟩ := exists_eq_comment h.1
      rw [compressed_comment, ih h.2]
      cases hkept : options.preserveComments <;> simp [keptComments, keptComment, comment?, hkept]

/-- The comments of a block are comments as the scanner has them. -/
theorem Items.isClosedComment {nested : Bool} {nodes : List Node} (h : Items nested nodes) :
    ∀ c, .comment c ∈ nodes → Literal.IsClosedComment c := by
  -- A comment among the nodes was read as one piece, which is closed.
  have hfirst : ∀ {c : Text} {nested : Bool} {rest : List Node}, Items nested (.comment c :: rest) →
      Literal.IsClosedComment c := by
    intro c nested rest h
    cases h with
    | comment halone hclosed hrest =>
        rcases mem_pieces_closed (t := c) (by rw [halone]; exact List.mem_singleton_self _) hclosed
          with ⟨d, hd⟩ | ⟨s, hs, -⟩ | ⟨s, hs, hc⟩
        · cases hd
        · cases hs
        · cases hs
          exact hc
    | line hn hrest => cases hn.needsSelector
    | last hn => cases hn.needsSelector
  intro c hc
  induction nodes generalizing nested with
  | nil => cases hc
  | cons n rest ih =>
      rcases List.mem_cons.mp hc with rfl | hc
      · exact hfirst h
      · exact ih h.tail hc

/-- The same for those that are kept. -/
theorem Items.isClosedComment_kept {nested : Bool} {nodes : List Node} (h : Items nested nodes)
    (options : FormatOptions) : ∀ c ∈ keptComments options nodes, Literal.IsClosedComment c := by
  intro c hc
  unfold keptComments at hc
  split at hc
  · obtain ⟨n, hn, hcomment⟩ := List.mem_filterMap.mp hc
    cases n with
    | comment t =>
        obtain rfl : t = c := Option.some.inj hcomment
        exact h.isClosedComment t hn
    | importUrl url media => cases hcomment
    | declaration name value => cases hcomment
    | statement t => cases hcomment
    | rule header children => cases hcomment
  · cases hc

/-! ### Read again -/

/-- Whether a semicolon is written depends on what follows: it is left out
before comments only. -/
theorem endMark_congr {rest rest' : List Node} (h : rest'.all isComment = rest.all isComment)
    (ending : Ending) : endMark rest' ending = endMark rest ending := by
  cases ending with
  | closed => rfl
  | always => rfl
  | unlessLast => rw [endMark, endMark, h]

/-- What is read from compressed nodes is compressed to the same text. -/
structure ReadAgain (options : FormatOptions) (nested : Bool) (nodes again : List Node) : Prop where
  fills : FillsAs again (compressed options nodes) nested
  same : compressed options again = compressed options nodes
  /-- Something else than comments is read where it was written. -/
  comments : again.all isComment = nodes.all isComment

namespace ReadAgain

variable {options : FormatOptions} {nested : Bool} {rest again : List Node}

/-- Nothing is read from nothing. -/
theorem nil : ReadAgain options nested [] [] := by
  have hblank : blank [] = true := rfl
  exact ⟨(ReadsAs.gap hblank).fills, rfl, rfl⟩

/-- An item that is read as one that is written in the same way. -/
theorem cons {n n' : Node} (hn : n.isComment = false) (hn' : n'.isComment = false)
    (hitem : compressedItem options n' = compressedItem options n)
    (hread : ReadsAs [n'] ((compressedItem options n).1 ++ endMark rest (compressedItem options n).2)
      nested)
    (h : ReadAgain options nested rest again) :
    ReadAgain options nested (n :: rest) (n' :: again) := by
  refine ⟨?_, ?_, ?_⟩
  · rw [compressed_cons options hn, ← List.append_assoc]
    exact hread.append_fills h.fills
  · -- Whether a semicolon is written depends on what follows, which is not the same nodes.
    rw [compressed_cons options hn', compressed_cons options hn, hitem, h.same,
      endMark_congr h.comments]
  · rw [List.all_cons, List.all_cons, hn, hn', h.comments]

/-- A comment between two items, if it is kept. -/
theorem comment {t : Text} (halone : pieces t = [.comment t])
    (hclosed : (Piece.comment t).closed = true) (h : ReadAgain options nested rest again) :
    ∃ again', ReadAgain options nested (.comment t :: rest) again' := by
  cases hkept : options.preserveComments with
  | true =>
      have hkeep : keptComment options t = t := by simp [keptComment, hkept]
      refine ⟨.comment t :: again, ?_, ?_, ?_⟩
      · rw [compressed_comment, hkeep]
        exact (ReadsAs.comment halone hclosed).append_fills h.fills
      · rw [compressed_comment, compressed_comment, h.same]
      · rw [List.all_cons, List.all_cons, h.comments]
  | false =>
      have hdrop : keptComment options t = [] := by simp [keptComment, hkept]
      refine ⟨again, ?_, ?_, ?_⟩
      · rw [compressed_comment, hdrop]
        exact h.fills
      · rw [compressed_comment, hdrop]
        exact h.same
      · rw [List.all_cons]
        exact h.comments

/-- An import is read with tightened media, which are not changed again. -/
theorem importUrl {url media : Text} (hmedia : IsCollapsed media) (hstay : Survives nested url media)
    (h : ReadAgain options nested rest again) :
    ReadAgain options nested (.importUrl url media :: rest)
      (.importUrl url (tighten [','] media) :: again) := by
  have hmarks : [','] ⊆ tightMarks := by simp [tightMarks]
  refine h.cons rfl rfl ?_ ?_
  · rw [compressedItem, compressedItem, tighten_tighten hmarks hstay.closed]
  · exact .importUrl (hstay.tighten hmedia.toHasEnds) (isCollapsed_tighten hmarks hstay.closed hmedia)

/-- A statement is read collapsed, which is how it is written. -/
theorem statement {t : Text} (ht : (Node.statement t).IsRead nested 0)
    (h : ReadAgain options nested rest again) :
    ReadAgain options nested (.statement t :: rest) (.statement (collapse t) :: again) := by
  refine h.cons rfl rfl ?_ ?_
  · rw [compressedItem, compressedItem, (isCollapsed_collapse t).collapse_eq]
  · exact ht.collapse.readsAs

/-- A rule is read with a tightened header. The header must be collapsed, as
the parser leaves it, because blanks are not collapsed any more when it is
written. -/
theorem rule {header : Text} {children childrenAgain : List Node} (hheader : Text.IsLine nested 0 header)
    (hcollapsed : IsCollapsed header) (hchildren : ReadAgain options true children childrenAgain)
    (h : ReadAgain options nested rest again) :
    ReadAgain options nested (.rule header children :: rest)
      (.rule (tighten [',', '>'] header) childrenAgain :: again) := by
  have hmarks : [',', '>'] ⊆ tightMarks := by simp [tightMarks]
  have hclosed := hheader.isSegment.closed
  refine h.cons rfl rfl ?_ ?_
  · rw [compressedItem_rule, compressedItem_rule, tighten_tighten hmarks hclosed, hchildren.same]
  · -- The parser collapses a header, and this one is collapsed already.
    have hblank : blank [] = true := rfl
    have hblock := ReadsAs.block (isSegment_tighten hheader hcollapsed) hblank hchildren.fills
    rw [(isCollapsed_tighten hmarks hclosed hcollapsed).collapse_eq] at hblock
    rw [compressedItem_rule, endMark, List.append_nil]
    exact hblock

/-- A declaration with something behind it that is no comment gets its
semicolon. -/
theorem declaration {name value : Text} (hread : (Node.declaration name value).IsRead nested 0)
    (hstay : Value.IsSettled options (Value.compress options name value))
    (hmore : rest.all isComment = false) (h : ReadAgain options nested rest again) :
    ReadAgain options nested (.declaration name value :: rest)
      (.declaration name (Value.compress options name value) :: again) := by
  obtain ⟨hends, hvalue⟩ := hread.value
  refine h.cons rfl rfl ?_ ?_
  · rw [compressedItem, compressedItem, Value.compress_compress options name hends hvalue hstay]
  · have hline := (hread.withValue (Value.isShort_compress options name hends hvalue)).readsAs
    simpa [compressedItem, endMark, hmore, compact] using hline

/-- Behind the last declaration comments are a part of its value. -/
theorem lastDeclaration {depth : Nat} {name value : Text}
    (hread : (Node.declaration name value).IsRead nested depth)
    (hstay : Value.IsSettled options (Value.compress options name value))
    (hend : rest.all isComment = true)
    (hcomments : ∀ c ∈ keptComments options rest, Literal.IsClosedComment c)
    (hquiet : ∀ c ∈ keptComments options rest, Value.IsQuiet options c) :
    ReadAgain options nested (.declaration name value :: rest)
      [.declaration name (Value.compress options name value ++ (keptComments options rest).flatten)] := by
  obtain ⟨hends, hvalue⟩ := hread.value
  have hshort := Value.isShort_compress options name hends hvalue
  -- With the comments behind it the value is short all the same, and read as one value.
  have hlong := hshort.append_comments hcomments hquiet
  obtain ⟨hcoloured, hweighed, hunitless⟩ := hstay.steps
  have htext : compressed options (.declaration name value :: rest)
      = name ++ ':' :: (Value.compress options name value ++ (keptComments options rest).flatten) := by
    rw [compressed_cons options rfl, compressed_comments options hend]
    simp [compressedItem, endMark, hend]
  refine ⟨?_, ?_, ?_⟩
  · rw [htext]
    exact (hread.withValue hlong).fillsAs (by simp [compact])
  · -- Compressing the longer value leaves both parts as they are.
    have hsame := Value.compress_append_comments hcomments hquiet hshort hcoloured hweighed hunitless
    rw [htext, compressed_cons options rfl]
    simp [compressedItem, endMark, hsame]
  · rfl

end ReadAgain

/-- What is read from compressed output is compressed to it. -/
theorem exists_again (options : FormatOptions) {nested : Bool} {nodes : List Node}
    (h : Items nested nodes) (hstay : AllStay options nested nodes) :
    ∃ again, ReadAgain options nested nodes again := by
  -- The nodes that are read again are built from the end, as `endMark` looks at what follows.
  induction h with
  | nil nested => exact ⟨[], .nil⟩
  | comment halone hclosed hrest ih =>
      obtain ⟨-, hrestStay, -⟩ := hstay
      obtain ⟨again, hagain⟩ := ih hrestStay
      exact hagain.comment halone hclosed
  | importUrl hmedia hrest ih =>
      obtain ⟨hn, hrestStay, -⟩ := hstay
      obtain ⟨again, hagain⟩ := ih hrestStay
      exact ⟨_, hagain.importUrl hmedia hn⟩
  | @line nested n rest hn hrest ih =>
      obtain ⟨hnStay, hrestStay, hquiet⟩ := hstay
      obtain ⟨again, hagain⟩ := ih hrestStay
      cases n with
      | statement t => exact ⟨_, hagain.statement hn⟩
      | declaration name value =>
          cases hend : rest.all isComment with
          | true =>
              -- What was read from the comments is of no use: they are a part of the value now.
              exact ⟨_, .lastDeclaration hn hnStay hend (hrest.isClosedComment_kept options)
                (hquiet rfl hend)⟩
          | false => exact ⟨_, hagain.declaration hn hnStay hend⟩
      | comment t => cases hn
      | importUrl url media => cases hn
      | rule header children => cases hn
  | @last nested n depth hn =>
      obtain ⟨hnStay, -, hquiet⟩ := hstay
      cases n with
      | statement t =>
          -- An open bracket would take the semicolon that is written here.
          obtain rfl : depth = 0 := hn.depth_eq hnStay
          exact ⟨_, ReadAgain.nil.statement hn⟩
      | declaration name value =>
          exact ⟨_, .lastDeclaration hn hnStay rfl ((Items.nil nested).isClosedComment_kept options)
            (hquiet rfl rfl)⟩
      | comment t => cases hn
      | importUrl url media => cases hn
      | rule header children => cases hn
  | rule hheader hcollapsed hchildren hrest ihChildren ihRest =>
      obtain ⟨hchildrenStay, hrestStay, -⟩ := hstay
      obtain ⟨childrenAgain, hchildrenAgain⟩ := ihChildren hchildrenStay
      obtain ⟨again, hagain⟩ := ihRest hrestStay
      exact ⟨_, .rule hheader hcollapsed hchildrenAgain hagain⟩

/-- Compressed output stays as it is when it is compressed again. The literals
of the text are closed, so what is read from it is in order, and `AllStay` says
what could still change: a value that shows another short form once the first
one is written, a bracket that takes in a semicolon, and imports that cannot be
read back. -/
theorem format_format {options : FormatOptions} (hcompress : options.compress = true) {text : Text}
    {nodes : List Node} (hparse : parse text = .ok nodes)
    (hclosed : ∀ p ∈ pieces text, p.closed = true) (hstay : AllStay options false nodes) :
    (parse (format options nodes)).map (format options) = .ok (format options nodes) := by
  obtain ⟨again, hagain⟩ := exists_again options (items_of_parse hclosed hparse) hstay
  have hformat : ∀ ns, format options ns = compressed options ns := fun ns => if_pos hcompress
  rw [hformat, hagain.fills.parse_eq]
  exact congrArg Except.ok ((hformat again).trans hagain.same)

/-- Everything that is written short, comments in front of an item and
behind the last declaration, and brackets that are left open at the end of a
block. -/
def roomySheet : Text :=
  "@charset \"utf-8\" ;@import url( 'a b.css' ) screen , tv ;\n/* k  l */a > b , c \x7b ".toList
    ++ "color : RGB( 1, 2 ,3 )  0.0px , -0em ; /* x */\nfont-weight : BOLD ; /* y */ \x7d".toList
    ++ " d \x7b e : ( 0px \x7d".toList

/-- The sheet is written short in all these ways, and then stays as it is. -/
theorem format_format_roomySheet : ∃ nodes, parse roomySheet = .ok nodes
    ∧ (∀ p ∈ pieces roomySheet, p.closed = true) ∧ AllStay { compress := true } false nodes
    ∧ format { compress := true } nodes
      = "@charset \"utf-8\";@import 'a b.css' screen,tv;/* k  l */a>b,c\x7bcolor:#010203 0,0;".toList
        ++ "/* x */font-weight:700/* y */\x7dd\x7be:( 0\x7d".toList
    ∧ (parse (format { compress := true } nodes)).map (format { compress := true })
      = .ok (format { compress := true } nodes) := by
  have hclosed : ∀ p ∈ pieces roomySheet, p.closed = true := by decide +kernel
  have hsheet : (parse roomySheet).map (fun nodes => decide (AllStay { compress := true } false nodes
      ∧ format { compress := true } nodes
        = "@charset \"utf-8\";@import 'a b.css' screen,tv;/* k  l */a>b,c\x7bcolor:#010203 0,0;".toList
          ++ "/* x */font-weight:700/* y */\x7dd\x7be:( 0\x7d".toList)) = .ok true := by
    decide +kernel
  obtain ⟨nodes, hparse, hnodes⟩ := exists_of_map_ok hsheet
  obtain ⟨hstay, htext⟩ := of_decide_eq_true hnodes.symm
  exact ⟨nodes, hparse, hclosed, hstay, htext, format_format rfl hparse hclosed hstay⟩

/-- A colour that shows up when a unit is gone, a comment that is collapsed
as a part of a value, and a semicolon that is lost in a bracket. -/
theorem format_format_changed :
    ((parse "a\x7bb:rgb(0px,0,0)\x7d".toList).map (format { compress := true })
          = .ok "a\x7bb:rgb(0,0,0)\x7d".toList
        ∧ (parse "a\x7bb:rgb(0,0,0)\x7d".toList).map (format { compress := true })
          = .ok "a\x7bb:#000000\x7d".toList)
      ∧ ((parse "a\x7bb:c;/* x  y */\x7d".toList).map (format { compress := true })
          = .ok "a\x7bb:c/* x  y */\x7d".toList
        ∧ (parse "a\x7bb:c/* x  y */\x7d".toList).map (format { compress := true })
          = .ok "a\x7bb:c/* x y */\x7d".toList)
      ∧ (parse "(".toList).map (format { compress := true }) = .ok "(;".toList
        ∧ (parse "(;".toList).map (format { compress := true }) = .ok "(;;".toList := by
  decide +kernel

end Node

end Stylesheet
