import Stylesheet.Proofs.FixedPoint
import Stylesheet.Proofs.RoundTrip

/-!
# Compression keeps the structure

Compressed output leaves out whatever the parser can do without, and which
semicolons these are depends on what follows and on which nodes were
dropped. `parse_compressed`: with comments dropped and values left alone, a
clean forest is read back from its compressed form. What is read is
`Node.tightAll` of the forest: no comments at any depth, no blanks next to
commas in values and media and next to commas and `>` in headers, and apart
from that the same nodes in the same places.

The induction follows the printer from the end of a block. Each item is read
as its tight form whatever stands behind it (`readsAs_item`), but for the
last declaration: that has no semicolon, and has to be the last in its block
to be read (`fillsAs_lastDeclaration`).
-/

set_option autoImplicit false

namespace Stylesheet

/-- Comments are dropped, and values are written as they are. -/
structure FormatOptions.IsBare (options : FormatOptions) : Prop where
  comments : options.preserveComments = false
  colors : options.rgbToHex = false
  weights : options.fontWeightsToNumbers = false
  zeros : options.removeEmptyMeasurements = false

/-- If values are left as they are, only the blanks at commas go. -/
theorem Value.compress_bare {options : FormatOptions} (h : options.IsBare) (name : Text)
    {value : Text} (hvalue : Text.collapse value = value) :
    compress options name value = tighten [','] value := by
  simp [compress, h.colors, h.weights, h.zeros, hvalue]

namespace Node

open Text

/-! ### Tight forests -/

mutual

/-- A node without the blanks that mean nothing. -/
def tight : Node → Node
  | comment t => comment t
  | importUrl url media => importUrl url (tighten [','] media)
  | declaration name value => declaration name (tighten [','] value)
  | statement t => statement t
  | rule header children => rule (tighten [',', '>'] header) (tightAll children)

/-- Nodes without comments, and without the blanks that mean nothing. -/
def tightAll : List Node → List Node
  | [] => []
  | n :: rest => if n.isComment then tightAll rest else n.tight :: tightAll rest

end

/-- A node that is no comment stays. -/
theorem tightAll_cons {n : Node} (hn : n.isComment = false) (rest : List Node) :
    tightAll (n :: rest) = n.tight :: tightAll rest := by
  rw [tightAll, if_neg (by simp [hn])]

/-- Nothing is left of comments. -/
theorem tightAll_comments {nodes : List Node} (h : nodes.all isComment = true) :
    tightAll nodes = [] := by
  induction nodes with
  | nil => rfl
  | cons n rest ih =>
      rw [List.all_cons, Bool.and_eq_true] at h
      rw [tightAll, if_pos h.1, ih h.2]

/-- A node is among what is in it. -/
theorem self_mem_withDescendants (n : Node) : n ∈ withDescendants n := by
  cases n <;> simp [withDescendants]

/-! ### Items -/

/-- A clean text is a line. -/
theorem isLine_clean {t : Text} (h : Text.IsClean t) (hcomment : beginsComment t = false) :
    Text.IsLine true 0 t :=
  ⟨h.hasEnds, (Scan.endsAt_iff t).mpr
    ⟨h.closed, passed_of_openBehind true h.inert h.balanced⟩, hcomment⟩

/-- A clean declaration is one that the parser could have read. -/
theorem IsClean.isRead {name value : Text} (h : (Node.declaration name value).IsClean) :
    (Node.declaration name value).IsRead true 0 := by
  obtain ⟨hname, hcomment, hat, hcolon, hvalue⟩ := h
  have hback : Scan.EndsAt true ⟨.plain, 0⟩ value 0 := (Scan.endsAt_iff value).mpr
    ⟨hvalue.closed, passed_of_openBehind true hvalue.inert hvalue.balanced⟩
  exact .declaration hname.hasEnds hvalue.hasEnds (isLine_clean hname hcomment).endsAt hback hcolon hat
    hcomment

/-- So is one without the blanks in its value. -/
theorem isRead_tight {name value : Text} (h : (Node.declaration name value).IsClean) :
    (Node.declaration name (tighten [','] value)).IsRead true 0 := by
  obtain ⟨hends, hvalue⟩ := h.isRead.value
  have hshort := Value.isShort_tighten hends hvalue
  rw [h.2.2.2.2.collapsed] at hshort
  exact h.isRead.withValue hshort

/-- A clean import is read with tightened media. -/
theorem ReadsAs.tightImport {url media : Text} (h : (Node.importUrl url media).IsClean) :
    ReadsAs [(Node.importUrl url media).tight] (renderImport url (tighten [','] media) ++ [';']) := by
  have hmarks : [','] ⊆ tightMarks := by simp [tightMarks]
  obtain ⟨hurl, hmedia⟩ := h
  have hcollapsed := collapse_eq_self_iff.mp hmedia.collapsed
  have hsurvives := survives_target true hurl hmedia.toIsContained
  exact .importUrl (hsurvives.tighten hcollapsed.toHasEnds)
    (isCollapsed_tighten hmarks hmedia.closed hcollapsed)

/-- A rule is read with a tightened header and what is read inside. -/
theorem ReadsAs.tightRule {header inside : Text} {children : List Node}
    (h : (Node.rule header children).IsClean) (hinside : FillsAs (tightAll children) inside) :
    ReadsAs [(Node.rule header children).tight]
      (tighten [',', '>'] header ++ '{' :: (inside ++ ['}'])) := by
  have hmarks : [',', '>'] ⊆ tightMarks := by simp [tightMarks]
  obtain ⟨hheader, hcomment⟩ := h
  have hcollapsed := collapse_eq_self_iff.mp hheader.collapsed
  have hblank : blank [] = true := rfl
  have hblock := ReadsAs.block (isSegment_tighten (isLine_clean hheader hcomment) hcollapsed) hblank
    hinside
  -- The parser collapses a header, and this one is collapsed already.
  rw [(isCollapsed_tighten hmarks hheader.closed hcollapsed).collapse_eq] at hblock
  exact hblock

/-- A declaration at the end of its block, with nothing but comments behind
it. -/
theorem fillsAs_lastDeclaration {options : FormatOptions} (hbare : options.IsBare)
    {name value : Text} {rest : List Node} (h : (Node.declaration name value).IsClean)
    (hrest : rest.all isComment = true) :
    FillsAs (tightAll (.declaration name value :: rest))
      (compressed options (.declaration name value :: rest)) := by
  have hcompress := Value.compress_bare hbare name h.2.2.2.2.collapsed
  have htext : compressed options (.declaration name value :: rest)
      = name ++ ':' :: tighten [','] value := by
    rw [compressed_cons options rfl, compressed_comments options hrest]
    simp [compressedItem, endMark, hrest, hcompress, keptComments, hbare.comments]
  rw [htext, tightAll_cons rfl, tightAll_comments hrest]
  exact (isRead_tight h).fillsAs (by simp [compact])

/-! ### Forests -/

mutual

/-- An item is read with what ends it, and more may follow. -/
theorem readsAs_item {options : FormatOptions} (hbare : options.IsBare) (n : Node)
    (hn : n.isComment = false)
    (h : ∀ m ∈ withDescendants n, m.isComment = false → m.IsClean ∧ m.isReadable = true)
    {rest : List Node} (hlast : n.isDeclaration = true → rest.all isComment = false) :
    ReadsAs [n.tight]
      ((compressedItem options n).1 ++ endMark rest (compressedItem options n).2) := by
  obtain ⟨hclean, hread⟩ := h n (self_mem_withDescendants n) hn
  cases n with
  | comment t => cases hn
  | importUrl url media => exact .tightImport hclean
  | declaration name value =>
      have hline := (isRead_tight hclean).readsAs
      have hcompress := Value.compress_bare hbare name hclean.2.2.2.2.collapsed
      simpa [compressedItem, endMark, hlast rfl, hcompress, compact, tight] using hline
  | statement t =>
      have ht : collapse t = t := hclean.1.collapsed
      simpa [compressedItem, endMark, ht, tight] using ReadsAs.ofStatement hclean hread
  | rule header children =>
      rw [withDescendants, List.forall_mem_cons] at h
      rw [compressedItem_rule, endMark, List.append_nil]
      exact .tightRule hclean (fillsAs_compressed hbare children h.2)

/-- What is compressed is read as the tight forest, by induction on the forest.
Comments need not be clean, since they are not written. -/
theorem fillsAs_compressed {options : FormatOptions} (hbare : options.IsBare) (nodes : List Node)
    (h : ∀ m ∈ descendants nodes, m.isComment = false → m.IsClean ∧ m.isReadable = true) :
    FillsAs (tightAll nodes) (compressed options nodes) := by
  cases nodes with
  | nil =>
      have hblank : blank [] = true := rfl
      exact (ReadsAs.gap hblank).fills
  | cons n rest =>
      rw [descendants, List.forall_mem_append] at h
      obtain ⟨hn, hrest⟩ := h
      have hbehind := fillsAs_compressed hbare rest hrest
      cases hcomment : n.isComment with
      | true =>
          obtain ⟨t, rfl⟩ := exists_eq_comment hcomment
          rw [tightAll, if_pos hcomment, compressed_comment, keptComment,
            if_neg (by simp [hbare.comments])]
          exact hbehind
      | false =>
          have hclean := (hn n (self_mem_withDescendants n) hcomment).1
          -- A declaration that ends a block has no semicolon behind it and is read by the end
          -- of the block.
          by_cases hlast : n.isDeclaration = true → rest.all isComment = false
          · have hitem := readsAs_item hbare n hcomment hn hlast
            rw [compressed_cons options hcomment, tightAll_cons hcomment, ← List.append_assoc]
            exact hitem.append_fills hbehind
          · obtain ⟨hdeclaration, hcomments⟩ := Classical.not_imp.mp hlast
            cases n with
            | declaration name value =>
                exact fillsAs_lastDeclaration hbare hclean (by simpa using hcomments)
            | _ => cases hdeclaration

end

/-- From compressed output without comments, and with values as they are,
the tight forest is read. -/
theorem parse_compressed {options : FormatOptions} (hbare : options.IsBare) {nodes : List Node}
    (hclean : ∀ n ∈ descendants nodes, n.isComment = false → n.IsClean)
    (hread : ∀ n ∈ descendants nodes, n.isReadable = true) :
    parse (compressed options nodes) = .ok (tightAll nodes) :=
  (fillsAs_compressed hbare nodes fun n hn hcomment => ⟨hclean n hn hcomment, hread n hn⟩).parse_eq

/-- Blanks next to marks in every place, declarations before a rule, before
comments and at the end of a block, and a comment that is none. -/
def spaced : List Node :=
  [.comment "/* a */".toList, .importUrl "a.css".toList "screen , tv".toList,
    .rule "a > b , c".toList
      [.declaration "x".toList "f( 1 , \"p , q\" )".toList, .comment "never ended".toList,
        .rule "@media x , y".toList [.comment "/**/".toList, .declaration "z".toList []],
        .statement "@extend .d , .e".toList, .declaration "y".toList "/*;*/ , 0px".toList,
        .comment "/* b */".toList, .comment "/* c */".toList],
    .rule [] [.comment "/* d */".toList], .declaration "v".toList "w".toList]

/-- Options that leave values as they are. -/
def bareOptions : FormatOptions :=
  { compress := true, preserveComments := false, rgbToHex := false, fontWeightsToNumbers := false,
    removeEmptyMeasurements := false }

/-- The forest is compressed, and what is read is tight. -/
theorem parse_compressed_spaced :
    bareOptions.IsBare ∧ (∀ n ∈ descendants spaced, n.isComment = false → n.IsClean)
      ∧ (∀ n ∈ descendants spaced, n.isReadable = true)
      ∧ compressed bareOptions spaced
        = "@import 'a.css' screen,tv;a>b,c\x7bx:f( 1,\"p , q\" );@media x,y\x7bz:\x7d".toList
          ++ "@extend .d , .e;y:/*;*/,0px\x7d\x7b\x7dv:w".toList
      ∧ parse (compressed bareOptions spaced) = .ok (tightAll spaced) := by
  have hbare : bareOptions.IsBare := ⟨rfl, rfl, rfl, rfl⟩
  have hclean : ∀ n ∈ descendants spaced, n.isComment = false → n.IsClean := by decide +kernel
  have hread : ∀ n ∈ descendants spaced, n.isReadable = true := by decide +kernel
  exact ⟨hbare, hclean, hread, by decide +kernel, parse_compressed hbare hclean hread⟩

end Node

end Stylesheet
