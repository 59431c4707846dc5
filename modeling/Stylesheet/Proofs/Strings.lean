import Stylesheet.Proofs.Compressed
import Stylesheet.Proofs.Parsed
import Stylesheet.Proofs.ShortValues

/-!
# What becomes of strings

Formatting keeps the strings of a stylesheet in number and order. But it
does not keep each of them as it was: headers, statements and values are
collapsed without regard to quotes, and what is written short in a value is
written short in its strings as well. `strings_format` says both. The
strings of the output are those of the text, one by one, each as it was, or
collapsed, or (in a value) collapsed and then with colours and zeros written
short; so if these steps find nothing to do in a string, the strings stay
(`strings_format_altered` has two that do not).

There are two halves, and between them stands `shownAll`: the strings of the
texts that are printed, in order. The printers put no quote between these
texts, and no slash and star meet (`spells_pretty`, `spells_compressed`). The
parser took each of these texts from the pieces of one segment
(`accounted_parse`).
-/

set_option autoImplicit false

namespace Stylesheet

open Text

/-! ### Strings of trimmed, collapsed and short texts -/

section

variable {t : Text} (hclosed : ∀ p ∈ pieces t, p.closed = true)

include hclosed

/-- The literals of a trimmed text are closed if those of the text are.
Trimming takes blanks at the ends away, and a closed literal ends with its
mark. -/
theorem closed_trim : ∀ p ∈ pieces (trim t), p.closed = true := by
  obtain ⟨front, back, -, -, hpieces⟩ := exists_pieces_trim hclosed
  rw [hpieces] at hclosed
  exact fun p hp => hclosed p (by simp [hp])

/-- The blanks that are trimmed stand outside of the strings. -/
theorem strings_trim : strings (trim t) = strings t := by
  obtain ⟨front, back, -, -, hpieces⟩ := exists_pieces_trim hclosed
  rw [strings, strings, hpieces]
  simp [stringsOf_append]

/-- A string begins and ends with its quotes. -/
theorem hasEnds_of_mem_strings {s : Text} (hs : s ∈ strings t) : HasEnds s := by
  obtain ⟨p, hp, hstring⟩ := List.mem_filterMap.mp hs
  rcases mem_pieces_closed hp (hclosed p hp) with ⟨c, rfl⟩ | ⟨r, rfl, q, body, hq, hr, -⟩ | ⟨r, rfl, -⟩
  · cases hstring
  · obtain rfl : r = s := Option.some.inj hstring
    have hblank : isBlank q = false := by
      rw [← Bool.not_eq_true]
      intro hblank
      rw [isQuote_eq_false hblank] at hq
      cases hq
    rw [hr]
    exact (HasEnds.singleton hblank).append (.singleton hblank) (by simp) (by simp) body
  · cases hstring

/-- Collapsing closes and opens nothing. It may reach into a string, but both
quotes stay. -/
theorem closed_collapse : ∀ p ∈ pieces (collapse t), p.closed = true := by
  rw [← collapse_trim]
  exact (rowRespelled_collapse (hasEnds_trim t) (closed_trim hclosed)).closed

/-- The strings of a text are collapsed with it. -/
theorem strings_collapse : strings (collapse t) = (strings t).map collapse := by
  -- Collapsing is a respelling only where there are no blanks at the ends.
  have hstrings : strings (collapse t) = (strings (trim t)).map (respell gapAt?) := by
    rw [← collapse_trim]
    exact (rowRespelled_collapse (hasEnds_trim t) (closed_trim hclosed)).stringsOf_eq
  rw [hstrings, strings_trim hclosed]
  refine List.map_congr_left fun s hs => ?_
  rw [collapse_eq_respell (hasEnds_of_mem_strings hclosed hs)]

end

namespace Value

section

variable {t : Text} (hclosed : ∀ p ∈ pieces t, p.closed = true)

include hclosed

/-- A respelling that is done or not is done or not in the strings. -/
theorem strings_ite {new : Char → Bool} {f : Respeller} (hf : IsRespelling new f) (wanted : Bool) :
    strings (if wanted then respell f t else t)
        = (strings t).map (fun s => if wanted then respell f s else s)
      ∧ ∀ p ∈ pieces (if wanted then respell f t else t), p.closed = true := by
  cases wanted with
  | true => exact ⟨hf.strings_respell hclosed, (hf.rowRespelled_pieces hclosed []).closed⟩
  | false => exact ⟨(List.map_id _).symm, hclosed⟩

/-- The first of the three steps: a colour may be found in a string too. -/
theorem strings_coloured (options : FormatOptions) :
    strings (coloured options t) = (strings t).map (coloured options)
      ∧ ∀ p ∈ pieces (coloured options t), p.closed = true :=
  strings_ite hclosed isRespelling_colorAt? options.rgbToHex

/-- The second step, which may find a zero with a unit in a string. -/
theorem strings_unitless (options : FormatOptions) :
    strings (unitless options t) = (strings t).map (unitless options)
      ∧ ∀ p ∈ pieces (unitless options t), p.closed = true :=
  strings_ite hclosed isRespelling_zeroAt? options.removeEmptyMeasurements

/-- A weight that is given by a word has no strings, and its number has
none. -/
theorem strings_weighed (options : FormatOptions) (name : Text) :
    strings (weighed options name t) = strings t
      ∧ ∀ p ∈ pieces (weighed options name t), p.closed = true := by
  have hplain : ∀ {u : Text}, FreeOf allMarks u →
      strings u = [] ∧ ∀ p ∈ pieces u, p.closed = true := by
    intro u hu
    rw [strings, pieces_eq_map_plain hu]
    exact ⟨stringsOf_map_plain u, by simp [Piece.closed]⟩
  -- Neither the word nor the number has a mark in it, so both are without strings.
  have hnumber : ∀ {number : Text}, FreeOf allMarks t → FreeOf allMarks number →
      strings number = strings t ∧ ∀ p ∈ pieces number, p.closed = true := by
    intro number ht hnumber
    rw [(hplain ht).1]
    exact hplain hnumber
  unfold weighed
  split
  · rcases weight_cases t with heq | ⟨hbold, heq⟩ | ⟨hnormal, heq⟩
    · rw [heq]
      exact ⟨rfl, hclosed⟩
    · rw [heq]
      exact hnumber (freeOf_of_map_toLower hbold (by decide)) (by decide)
    · rw [heq]
      exact hnumber (freeOf_of_map_toLower hnormal (by decide)) (by decide)
  · exact ⟨rfl, hclosed⟩

/-- What becomes of a string in a value. -/
def shortString (options : FormatOptions) (s : Text) : Text :=
  unitless options (coloured options (collapse s))

/-- All three steps one after the other. Each leaves closed literals behind,
which the next one needs. -/
theorem strings_compress (options : FormatOptions) (name : Text) :
    strings (compress options name t) = (strings t).map (shortString options)
      ∧ ∀ p ∈ pieces (compress options name t), p.closed = true := by
  have hmarks : [','] ⊆ tightMarks := by simp [tightMarks]
  have htight := closed_tighten hmarks (closed_collapse hclosed)
  obtain ⟨hcoloured, hcolouredClosed⟩ := strings_coloured htight options
  obtain ⟨hweighed, hweighedClosed⟩ := strings_weighed hcolouredClosed options name
  obtain ⟨hunitless, hunitlessClosed⟩ := strings_unitless hweighedClosed options
  rw [compress_eq]
  refine ⟨?_, hunitlessClosed⟩
  rw [hunitless, hweighed, hcoloured, strings_tighten hmarks (closed_collapse hclosed),
    strings_collapse hclosed, List.map_map, List.map_map]
  rfl

end

end Value

/-! ### Texts put together -/

/-- A text of closed literals whose strings are `ss`. -/
structure Spells (t : Text) (ss : List Text) : Prop where
  closed : ∀ p ∈ pieces t, p.closed = true
  strings_eq : strings t = ss

namespace Spells

/-- The empty text has no strings. -/
theorem nil : Spells [] [] := by
  refine ⟨?_, ?_⟩
  · rw [pieces]
    simp
  · rw [strings, pieces]
    rfl

variable {t : Text} {ss : List Text} (h : Spells t ss)

include h

/-- Characters that begin no literal. -/
theorem plain {x : Text} (hx : FreeOf literalMarks x) : Spells (x ++ t) ss := by
  have hpieces := pieces_append_of_freeOf hx t
  refine ⟨?_, ?_⟩
  · rw [hpieces, List.forall_mem_append]
    exact ⟨by simp [Piece.closed], h.closed⟩
  · rw [strings, hpieces, stringsOf_append, stringsOf_map_plain, List.nil_append]
    exact h.strings_eq

/-- A text of closed literals, before which no comment is opened by chance. -/
theorem text {s : Text} (hs : ∀ p ∈ pieces s, p.closed = true) (hhead : t.head? ≠ some '*') :
    Spells (s ++ t) (strings s ++ ss) := by
  have hpieces := pieces_append_of_head hs hhead
  refine ⟨?_, ?_⟩
  · rw [hpieces, List.forall_mem_append]
    exact ⟨hs, h.closed⟩
  · rw [strings, hpieces, stringsOf_append]
    exact congrArg _ h.strings_eq

/-- A closed comment in front adds no string. An open one would take in what
follows. -/
theorem comment {c : Text} (hc : Literal.IsClosedComment c) : Spells (c ++ t) ss := by
  have hpieces := pieces_of_take? (hc.take? t)
  refine ⟨?_, ?_⟩
  · rw [hpieces, List.forall_mem_cons]
    exact ⟨hc.closed, h.closed⟩
  · rw [strings, hpieces, stringsOf_comment]
    exact h.strings_eq

end Spells

namespace Node

/-- The literals in the texts of a node are closed. No import is meant: its
target gets other quotes. -/
def IsWhole : Node → Prop
  | comment t => Literal.IsClosedComment t
  | importUrl _ _ => False
  | declaration name value =>
    (∀ p ∈ pieces name, p.closed = true) ∧ ∀ p ∈ pieces value, p.closed = true
  | statement t => ∀ p ∈ pieces t, p.closed = true
  | rule header _ => ∀ p ∈ pieces header, p.closed = true

mutual

/-- The strings of a node as it is printed, if `write` says what becomes of
the value of a declaration. -/
def shown (write : Text → Text → Text) : Node → List Text
  | comment _ => []
  | importUrl _ _ => []
  | declaration name value => strings name ++ strings (write name value)
  | statement t => strings (collapse t)
  | rule header children => strings header ++ shownAll write children

/-- The strings of some nodes, one after the other. -/
def shownAll (write : Text → Text → Text) : List Node → List Text
  | [] => []
  | n :: rest => shown write n ++ shownAll write rest

end

/-- The strings of two forests one after the other. -/
theorem shownAll_append (write : Text → Text → Text) (nodes nodes' : List Node) :
    shownAll write (nodes ++ nodes') = shownAll write nodes ++ shownAll write nodes' := by
  induction nodes with
  | nil => rfl
  | cons n rest ih => rw [List.cons_append, shownAll, shownAll, ih, List.append_assoc]

/-- A node is one of those that are in it. -/
theorem isWhole_self {n : Node} (h : ∀ m ∈ withDescendants n, m.IsWhole) : n.IsWhole := by
  refine h n ?_
  cases n <;> simp [withDescendants]

/-! ### In lines -/

/-- Indentation is spaces, and these begin no literal. -/
theorem freeOf_indent (depth : Nat) : FreeOf literalMarks (indent depth) := by
  intro c hc
  rw [List.eq_of_mem_replicate hc]
  decide

mutual

-- A line is put together from its end, since whether a text in it ends with an open comment
-- depends on the character behind it.
/-- The strings of a printed node, with what is printed behind it. The
recursion is that of the printer, so this and the next lemma are proved
together. -/
theorem spells_prettyNode (depth : Nat) (n : Node) (hn : ∀ m ∈ withDescendants n, m.IsWhole)
    {t : Text} {ss : List Text} (h : Spells t ss) :
    Spells (prettyNode depth n ++ t) (shown (fun _ value => collapse value) n ++ ss) := by
  -- Each line is put together from its end, since a
  -- text can be put in front of one that is spelled.
  cases n with
  | comment c =>
      have hc : Literal.IsClosedComment c := isWhole_self hn
      have hline := ((h.plain (x := ['\n']) (by decide)).comment hc).plain (freeOf_indent depth)
      simpa [prettyNode, shown] using hline
  | importUrl url media => exact (isWhole_self hn).elim
  | declaration name value =>
      obtain ⟨hname, hvalue⟩ : (declaration name value).IsWhole := isWhole_self hn
      have hvalueLine := (h.plain (x := [';', '\n']) (by decide)).text (closed_collapse hvalue) (by simp)
      have hline := ((hvalueLine.plain (x := [':', ' ']) (by decide)).text hname (by simp)).plain
        (freeOf_indent depth)
      simpa [prettyNode, shown] using hline
  | statement s =>
      have hs : (statement s).IsWhole := isWhole_self hn
      have hline := ((h.plain (x := [';', '\n']) (by decide)).text (closed_collapse hs) (by simp)).plain
        (freeOf_indent depth)
      simpa [prettyNode, shown] using hline
  | rule header children =>
      have hheader : (rule header children).IsWhole := isWhole_self hn
      have hend := (h.plain (x := ['}', '\n']) (by decide)).plain (freeOf_indent depth)
      have hinside := spells_prettyNodes (depth + 1) children
        (fun m hm => hn m (by simp [withDescendants, hm])) hend
      have hblock := ((hinside.plain (x := [' ', '{', '\n']) (by decide)).text hheader (by simp)).plain
        (freeOf_indent depth)
      simpa [prettyNode, shown] using hblock

/-- The same of a row of nodes, each on lines of its own. -/
theorem spells_prettyNodes (depth : Nat) (nodes : List Node)
    (hnodes : ∀ m ∈ descendants nodes, m.IsWhole) {t : Text} {ss : List Text} (h : Spells t ss) :
    Spells (prettyNodes depth nodes ++ t) (shownAll (fun _ value => collapse value) nodes ++ ss) := by
  cases nodes with
  | nil => exact h
  | cons n rest =>
      have hrest := spells_prettyNodes depth rest
        (fun m hm => hnodes m (by simp [descendants, hm])) h
      have hn := spells_prettyNode depth n (fun m hm => hnodes m (by simp [descendants, hm])) hrest
      simpa [prettyNodes, shownAll] using hn

end

/-- A pretty printed forest has the strings of its nodes, with values
collapsed. -/
theorem spells_pretty (nodes : List Node) (hnodes : ∀ m ∈ descendants nodes, m.IsWhole) :
    Spells (pretty nodes) (shownAll (fun _ value => collapse value) nodes) := by
  have hfollowing : ∀ rest : List Node, (∀ m ∈ descendants rest, m.IsWhole) →
      Spells (rest.flatMap prettyFollowing) (shownAll (fun _ value => collapse value) rest) := by
    intro rest hrest
    induction rest with
    | nil => exact .nil
    | cons n rest ih =>
        have hline := spells_prettyNode 0 n (fun m hm => hrest m (by simp [descendants, hm]))
          (ih fun m hm => hrest m (by simp [descendants, hm]))
        have hgap : FreeOf literalMarks (if n.isRule then ['\n'] else []) := by
          split <;> decide
        simpa [prettyFollowing, shownAll] using hline.plain hgap
  cases nodes with
  | nil => exact .nil
  | cons n rest =>
      exact spells_prettyNode 0 n (fun m hm => hnodes m (by simp [descendants, hm]))
        (hfollowing rest fun m hm => hnodes m (by simp [descendants, hm]))

/-! ### In few characters -/

/-- Behind the last declaration come comments only, and no star. -/
theorem head?_comments (options : FormatOptions) {nodes : List Node}
    (hcomments : nodes.all isComment = true) (hnodes : ∀ m ∈ descendants nodes, m.IsWhole)
    {t : Text} (ht : t.head? ≠ some '*') : (compressed options nodes ++ t).head? ≠ some '*' := by
  induction nodes with
  | nil => exact ht
  | cons n rest ih =>
      rw [List.all_cons, Bool.and_eq_true] at hcomments
      obtain ⟨c, rfl⟩ := exists_eq_comment hcomments.1
      have hrest := ih hcomments.2 fun m hm => hnodes m (by simp [descendants, hm])
      obtain ⟨body, rfl, -⟩ : (comment c).IsWhole :=
        isWhole_self fun m hm => hnodes m (by simp [descendants, hm])
      rw [compressed_comment, keptComment]
      split
      · simp
      · exact hrest

/-- The same behind any item that is no block. -/
theorem head?_endMark (options : FormatOptions) {n : Node} {rest : List Node}
    (hn : ∀ m ∈ withDescendants n, m.IsWhole) (hrest : ∀ m ∈ descendants rest, m.IsWhole)
    {t : Text} (ht : t.head? ≠ some '*') (hcomment : n.isComment = false) (hrule : n.isRule = false) :
    (endMark rest (compressedItem options n).2 ++ (compressed options rest ++ t)).head? ≠ some '*' := by
  cases n with
  | comment c => cases hcomment
  | importUrl url media => exact (isWhole_self hn).elim
  | declaration name value =>
      rw [compressedItem, endMark]
      split
      · rename_i hcomments
        exact head?_comments options hcomments hrest ht
      · simp
  | statement s => simp [compressedItem, endMark]
  | rule header children => cases hrule

mutual

/-- The strings of a compressed item. Behind an item that is no rule there must
not be a star, since a slash at the end of the item would open a comment with
it. -/
theorem spells_compressedItem (options : FormatOptions) (n : Node)
    (hn : ∀ m ∈ withDescendants n, m.IsWhole) {t : Text} {ss : List Text} (h : Spells t ss)
    (ht : n.isRule = false → t.head? ≠ some '*') :
    Spells ((compressedItem options n).1 ++ t) (shown (Value.compress options) n ++ ss) := by
  cases n with
  | comment c => exact h.comment (isWhole_self hn)
  | importUrl url media => exact (isWhole_self hn).elim
  | declaration name value =>
      obtain ⟨hname, hvalue⟩ : (declaration name value).IsWhole := isWhole_self hn
      have hbehind := h.text (Value.strings_compress hvalue options name).2 (ht rfl)
      have hline := (hbehind.plain (x := [':']) (by decide)).text hname (by simp)
      simpa [compressedItem, shown] using hline
  | statement s =>
      have hs : (statement s).IsWhole := isWhole_self hn
      simpa [compressedItem, shown] using h.text (closed_collapse hs) (ht rfl)
  | rule header children =>
      have hheader : (rule header children).IsWhole := isWhole_self hn
      -- Of a header the blanks around two marks are dropped, which leaves its strings.
      have hmarks : [',', '>'] ⊆ tightMarks := by simp [tightMarks]
      have hinside := spells_compressed options children
        (fun m hm => hn m (by simp [withDescendants, hm])) (h.plain (x := ['}']) (by decide)) (by simp)
      have hblock := (hinside.plain (x := ['{']) (by decide)).text (closed_tighten hmarks hheader) (by simp)
      rw [strings_tighten hmarks hheader] at hblock
      simpa [compressedItem_rule, shown] using hblock

/-- The same of a row of items. The marks between them are no stars. -/
theorem spells_compressed (options : FormatOptions) (nodes : List Node)
    (hnodes : ∀ m ∈ descendants nodes, m.IsWhole) {t : Text} {ss : List Text} (h : Spells t ss)
    (ht : t.head? ≠ some '*') :
    Spells (compressed options nodes ++ t) (shownAll (Value.compress options) nodes ++ ss) := by
  cases nodes with
  | nil => exact h
  | cons n rest =>
      have hn : ∀ m ∈ withDescendants n, m.IsWhole := fun m hm => hnodes m (by simp [descendants, hm])
      have hnodes' : ∀ m ∈ descendants rest, m.IsWhole := fun m hm => hnodes m (by simp [descendants, hm])
      have hrest := spells_compressed options rest hnodes' h ht
      cases hcomment : n.isComment with
      | true =>
          obtain ⟨c, rfl⟩ := exists_eq_comment hcomment
          rw [compressed_comment, keptComment]
          split
          · simpa [shownAll, shown] using hrest.comment (isWhole_self hn)
          · simpa [shownAll, shown] using hrest
      | false =>
          -- The mark between two items neither begins nor ends a literal.
          have hmark : FreeOf literalMarks (endMark rest (compressedItem options n).2) := by
            unfold endMark
            split
            · decide
            · decide
            · split <;> decide
          have hitem := spells_compressedItem options n hn (hrest.plain hmark)
            (head?_endMark options hn hnodes' ht hcomment)
          simpa [compressed_cons options hcomment, shownAll] using hitem

end

/-! ### As they were read -/

/-- The strings in the value of a declaration. -/
def valueStrings : Node → List Text
  | declaration _ value => strings value
  | _ => []

/-- What formatting makes of the value of a declaration. -/
def printValue (options : FormatOptions) (name value : Text) : Text :=
  if options.compress then Value.compress options name value else collapse value

/-- What may become of a string: it stays, or it is collapsed, or, as one of
`values`, it is written short. -/
def Rewritten (options : FormatOptions) (values : List Text) (s s' : Text) : Prop :=
  s' = s ∨ s' = collapse s
    ∨ (options.compress = true ∧ s ∈ values ∧ s' = Value.shortString options s)

/-- More values allow more strings to be written short. -/
theorem Rewritten.mono {options : FormatOptions} {values values' : List Text}
    (h : values ⊆ values') {s s' : Text} (hs : Rewritten options values s s') :
    Rewritten options values' s s' :=
  hs.imp_right (Or.imp_right fun ⟨hcompress, hmem, heq⟩ => ⟨hcompress, h hmem, heq⟩)

/-- A list and what is made of it element by element. -/
theorem forall₂_map {R : Text → Text → Prop} {f : Text → Text} {ss : List Text}
    (h : ∀ s ∈ ss, R s (f s)) : List.Forall₂ R ss (ss.map f) := by
  rw [List.forall₂_map_right_iff, List.forall₂_same]
  exact h

/-- The strings of a value. They are collapsed, and in compressed output they
are written short, which only strings of values are. -/
theorem forall₂_printValue (options : FormatOptions) (name : Text) {value : Text}
    (hclosed : ∀ p ∈ pieces value, p.closed = true) :
    List.Forall₂ (Rewritten options (strings value)) (strings value)
      (strings (printValue options name value)) := by
  unfold printValue
  split
  · rename_i hcompress
    rw [(Value.strings_compress hclosed options name).1]
    exact forall₂_map fun s hs => .inr (.inr ⟨hcompress, hs, rfl⟩)
  · rw [strings_collapse hclosed]
    exact forall₂_map fun s _ => .inr (.inl rfl)

/-- The strings in the values of a forest. -/
def allValueStrings (nodes : List Node) : List Text := (descendants nodes).flatMap valueStrings

/-- Whether a node is an import. -/
def isImport : Node → Bool
  | importUrl _ _ => true
  | _ => false

/-- No import is in a forest. -/
def NoImport (nodes : List Node) : Prop := ∀ n ∈ descendants nodes, n.isImport = false

instance (nodes : List Node) : Decidable (NoImport nodes) :=
  inferInstanceAs (Decidable (∀ n ∈ descendants nodes, n.isImport = false))

/-- The strings of a segment and of the node that it is. -/
theorem forall₂_segment (options : FormatOptions) {t : Text} {node : Option Node}
    (hclosed : ∀ p ∈ pieces t, p.closed = true) (h : ofSegment t = .ok node)
    (himport : NoImport node.toList) :
    List.Forall₂ (Rewritten options (allValueStrings node.toList)) (strings t)
        (shownAll (printValue options) node.toList)
      ∧ ∀ n ∈ descendants node.toList, n.IsWhole := by
  rw [← strings_trim hclosed]
  have htrim := closed_trim hclosed
  cases taken_of_ofSegment h with
  | blank hnil =>
      rw [hnil, strings, pieces]
      exact ⟨.nil, by simp [descendants]⟩
  | importUrl hkeyword hn =>
      obtain ⟨url, media, rfl, -⟩ := exists_of_parseImport hn
      have hno := himport (.importUrl url media) (by simp [descendants, withDescendants])
      cases hno
  | atStatement himport hne hat =>
      refine ⟨?_, List.forall_mem_singleton.mpr (closed_collapse htrim)⟩
      -- It was collapsed by the parser and is collapsed again by the printer.
      have hcollapse := (isCollapsed_collapse (trim t)).collapse_eq
      rw [Option.toList, shownAll, shown, shownAll, List.append_nil, hcollapse, strings_collapse htrim]
      exact forall₂_map fun s _ => .inr (.inl rfl)
  | statement himport hne hat hsplit =>
      refine ⟨?_, List.forall_mem_singleton.mpr htrim⟩
      rw [Option.toList, shownAll, shown, shownAll, List.append_nil, strings_collapse htrim]
      exact forall₂_map fun s _ => .inr (.inl rfl)
  | @declaration front back hat hsplit =>
      obtain ⟨hpieces, -, -⟩ := pieces_of_splitTopOnce hsplit
      rw [hpieces, List.forall_mem_append, List.forall_mem_cons] at htrim
      obtain ⟨hfront, -, hback⟩ := htrim
      refine ⟨?_, List.forall_mem_singleton.mpr ⟨closed_trim hfront, closed_trim hback⟩⟩
      have hstrings : strings (trim t) = strings (trim front) ++ strings (trim back) := by
        rw [strings, hpieces, stringsOf_append, stringsOf_plain, strings_trim hfront,
          strings_trim hback]
        rfl
      rw [hstrings, Option.toList, shownAll, shown, shownAll, List.append_nil]
      -- The name is printed as it was read.
      refine List.rel_append (List.forall₂_same.mpr fun s _ => .inl rfl) ?_
      exact (forall₂_printValue options _ (closed_trim hback)).imp
        fun s s' => .mono (by simp [allValueStrings, descendants, withDescendants, valueStrings])

/-- No import is in two forests if it is in neither. -/
theorem noImport_append {nodes nodes' : List Node} :
    NoImport (nodes ++ nodes') ↔ NoImport nodes ∧ NoImport nodes' := by
  rw [NoImport, descendants_append, List.forall_mem_append]
  rfl

/-- A rule is no import itself, so it depends on its children. -/
theorem noImport_rule {header : Text} {children rest : List Node} :
    NoImport (.rule header children :: rest) ↔ NoImport children ∧ NoImport rest := by
  rw [NoImport, descendants, withDescendants, List.cons_append, List.forall_mem_cons,
    List.forall_mem_append]
  exact and_iff_right rfl

/-- The strings in the values of two forests. -/
theorem allValueStrings_append (nodes nodes' : List Node) :
    allValueStrings (nodes ++ nodes') = allValueStrings nodes ++ allValueStrings nodes' := by
  rw [allValueStrings, descendants_append, List.flatMap_append]
  rfl

/-- A rule has no value itself. -/
theorem allValueStrings_rule (header : Text) (children rest : List Node) :
    allValueStrings (.rule header children :: rest)
      = allValueStrings children ++ allValueStrings rest := by
  simp [allValueStrings, descendants, withDescendants, valueStrings]

/-- The strings of what was read are accounted for, and all of it is
whole. -/
def Accounted (options : FormatOptions) (ps : List Piece) (nodes : List Node) : Prop :=
  NoImport nodes →
    List.Forall₂ (Rewritten options (allValueStrings nodes)) (stringsOf ps)
        (shownAll (printValue options) nodes)
      ∧ ∀ n ∈ descendants nodes, n.IsWhole

namespace Accounted

variable {options : FormatOptions}

/-- The last segment of a text, which nothing ends. -/
theorem last {depth : Nat} {segment : List Piece} {node : Option Node}
    (hsegment : IsSegmentRow depth segment) (hnode : ofSegment (textOf segment) = .ok node) :
    Accounted options segment node.toList := by
  intro himport
  have hrow : pieces (textOf segment) = segment := hsegment.row
  have hclosed := hsegment.closed
  rw [← hrow] at hclosed ⊢
  exact forall₂_segment options hclosed hnode himport

/-- A comment between segments. Blanks before it are dropped, and it has no
strings. -/
theorem comment {gap rest : List Piece} {t : Text} {nodes : List Node}
    (hgap : ∀ p ∈ gap, p.isGap = true) (ht : Literal.IsClosedComment t)
    (ih : Accounted options rest nodes) :
    Accounted options (gap ++ .comment t :: rest) (.comment t :: nodes) := by
  intro himport
  have hsplit : NoImport ([.comment t] ++ nodes) := himport
  obtain ⟨hstrings, hwhole⟩ := ih (noImport_append.mp hsplit).2
  have hdescendants : descendants (.comment t :: nodes) = .comment t :: descendants nodes := rfl
  rw [← map_plain_textOf hgap, stringsOf_append, stringsOf_map_plain, stringsOf_comment]
  refine ⟨hstrings, ?_⟩
  rw [hdescendants, List.forall_mem_cons]
  exact ⟨ht, hwhole⟩

/-- A segment that a semicolon ends, and the rest of the text. -/
theorem semicolon {segment rest : List Piece} {node : Option Node} {nodes : List Node}
    (hsegment : IsSegmentRow 0 segment) (hnode : ofSegment (textOf segment) = .ok node)
    (ih : Accounted options rest nodes) :
    Accounted options (segment ++ .plain ';' :: rest) (node.toList ++ nodes) := by
  intro himport
  obtain ⟨hfront, hback⟩ := noImport_append.mp himport
  have hsegmentAll : Accounted options segment node.toList := last hsegment hnode
  obtain ⟨hsegmentStrings, hsegmentWhole⟩ := hsegmentAll hfront
  obtain ⟨hstrings, hwhole⟩ := ih hback
  rw [stringsOf_append, stringsOf_plain, shownAll_append, allValueStrings_append, descendants_append,
    List.forall_mem_append]
  refine ⟨List.rel_append ?_ ?_, hsegmentWhole, hwhole⟩
  · exact hsegmentStrings.imp fun s s' => .mono (List.subset_append_left _ _)
  · exact hstrings.imp fun s s' => .mono (List.subset_append_right _ _)

/-- A block. Its header is a segment, and what is inside was accounted for on
its own; that the braces inside balance is not used here. -/
theorem block {segment inside rest : List Piece} {children nodes : List Node}
    (hsegment : IsSegmentRow 0 segment) (_ : braces '}' inside = braces '{' inside)
    (ihInside : Accounted options inside children) (ihRest : Accounted options rest nodes) :
    Accounted options (segment ++ .plain '{' :: (inside ++ .plain '}' :: rest))
      (.rule (collapse (textOf segment)) children :: nodes) := by
  intro himport
  obtain ⟨hchildren, hnodes⟩ := noImport_rule.mp himport
  obtain ⟨hinsideStrings, hinsideWhole⟩ := ihInside hchildren
  obtain ⟨hstrings, hwhole⟩ := ihRest hnodes
  have hrow : pieces (textOf segment) = segment := hsegment.row
  have hclosed := hsegment.closed
  rw [← hrow] at hclosed
  have hheader : strings (collapse (textOf segment)) = (stringsOf segment).map collapse := by
    rw [strings_collapse hclosed, strings, hrow]
  rw [allValueStrings_rule, shownAll, shown, hheader, List.append_assoc]
  simp only [stringsOf_append, stringsOf_plain]
  refine ⟨List.rel_append (forall₂_map fun s _ => .inr (.inl rfl)) (List.rel_append ?_ ?_), ?_⟩
  · exact hinsideStrings.imp fun s s' => .mono (List.subset_append_left _ _)
  · exact hstrings.imp fun s s' => .mono (List.subset_append_right _ _)
  · rw [descendants, withDescendants, List.cons_append, List.forall_mem_cons, List.forall_mem_append]
    exact ⟨closed_collapse hclosed, hinsideWhole, hwhole⟩

end Accounted

/-- All that is read from a text of closed literals is accounted for. This is
the induction over the text, with one case for each kind of segment above. -/
theorem accounted_parse (options : FormatOptions) {text : Text} {nodes : List Node}
    (hparse : parse text = .ok nodes) (hclosed : ∀ p ∈ pieces text, p.closed = true) :
    Accounted options (pieces text) nodes :=
  (reads_of_parse hparse).rowInduction (isRow_pieces text) hclosed .last .comment .semicolon .block

/-- What is printed has the strings of the nodes, in both styles. -/
theorem strings_print (options : FormatOptions) {nodes : List Node}
    (h : ∀ n ∈ descendants nodes, n.IsWhole) :
    strings (format options nodes) = shownAll (printValue options) nodes := by
  unfold format
  split
  · rename_i hcompress
    have hwrite : printValue options = Value.compress options := by
      funext name value
      exact if_pos hcompress
    have hspells := (spells_compressed options nodes h .nil (by simp)).strings_eq
    rw [hwrite]
    simpa using hspells
  · rename_i hpretty
    have hwrite : printValue options = fun _ value => collapse value := by
      funext name value
      exact if_neg hpretty
    rw [hwrite]
    exact (spells_pretty nodes h).strings_eq

/-- If each element can only become itself, the list is the same. -/
theorem eq_of_forall₂ {R : Text → Text → Prop} {ss ss' : List Text} (h : List.Forall₂ R ss ss')
    (hR : ∀ s ∈ ss, ∀ s', R s s' → s' = s) : ss' = ss := by
  induction h with
  | nil => rfl
  | cons hs hrest ih =>
      obtain ⟨hhead, htail⟩ := List.forall_mem_cons.mp hR
      rw [hhead _ hs, ih htail]

/-- Nothing is found in the strings that would be written otherwise. -/
structure KeepsStrings (options : FormatOptions) (text : Text) (nodes : List Node) : Prop where
  collapsed : ∀ s ∈ strings text, collapse s = s
  short : options.compress = true → ∀ s ∈ allValueStrings nodes, Value.shortString options s = s

instance (options : FormatOptions) (text : Text) (nodes : List Node) :
    Decidable (KeepsStrings options text nodes) :=
  decidable_of_iff ((∀ s ∈ strings text, collapse s = s) ∧ (options.compress = true →
      ∀ s ∈ allValueStrings nodes, Value.shortString options s = s))
    ⟨fun ⟨hcollapsed, hshort⟩ => ⟨hcollapsed, hshort⟩, fun h => ⟨h.collapsed, h.short⟩⟩

/-- Formatting keeps the strings of a stylesheet in number and order, and
each of them as it was unless it is collapsed or written short. -/
theorem strings_format (options : FormatOptions) {text : Text} {nodes : List Node}
    (hparse : parse text = .ok nodes) (hclosed : ∀ p ∈ pieces text, p.closed = true)
    (himport : NoImport nodes) :
    List.Forall₂ (Rewritten options (allValueStrings nodes)) (strings text)
        (strings (format options nodes))
      ∧ (KeepsStrings options text nodes → strings (format options nodes) = strings text) := by
  obtain ⟨hstrings, hwhole⟩ := accounted_parse options hparse hclosed himport
  rw [strings_print options hwhole]
  refine ⟨hstrings, fun hkeeps => eq_of_forall₂ hstrings ?_⟩
  rintro s hs s' (rfl | rfl | ⟨hcompress, hvalue, rfl⟩)
  · rfl
  · exact hkeeps.collapsed s hs
  · exact hkeeps.short hcompress s hvalue

/-- Strings in a statement, a header, a value and a comment, with all that
is written short outside them. -/
def quotedSheet : Text :=
  "@charset 'utf-8';a[title=\"x, y\"] > b \x7bcontent : \"0px\"  'it\\'s' , rgb(0,0,0) 0px;".toList
    ++ "/* \"c  d\" */ font-weight: bold\x7d".toList

/-- The sheet is read, all its literals are closed, and its strings are kept. -/
theorem strings_format_quotedSheet : ∃ nodes, parse quotedSheet = .ok nodes
    ∧ (∀ p ∈ pieces quotedSheet, p.closed = true) ∧ NoImport nodes
    ∧ strings (format { compress := true } nodes) = strings quotedSheet := by
  have hclosed : ∀ p ∈ pieces quotedSheet, p.closed = true := by decide +kernel
  have hsheet : (parse quotedSheet).map (fun nodes =>
      decide (NoImport nodes ∧ KeepsStrings { compress := true } quotedSheet nodes)) = .ok true := by
    decide +kernel
  obtain ⟨nodes, hparse, hnodes⟩ := exists_of_map_ok hsheet
  obtain ⟨himport, hkeeps⟩ := of_decide_eq_true hnodes.symm
  exact ⟨nodes, hparse, hclosed, himport,
    (strings_format { compress := true } hparse hclosed himport).2 hkeeps⟩

/-- Two blanks in a string become one. In compressed output a colour in a
string is written in hexadecimal and a zero without its unit. -/
theorem strings_format_altered :
    (strings "a\x7bb:\"x  y\"\x7d".toList = ["\"x  y\"".toList]
        ∧ (parse "a\x7bb:\"x  y\"\x7d".toList).map (fun nodes => strings (format {} nodes))
          = .ok ["\"x y\"".toList])
      ∧ strings "a\x7bb:\"rgb(1,2,3) 0px\"\x7d".toList = ["\"rgb(1,2,3) 0px\"".toList]
        ∧ (parse "a\x7bb:\"rgb(1,2,3) 0px\"\x7d".toList).map
            (fun nodes => strings (format { compress := true } nodes))
          = .ok ["\"#010203 0\"".toList] := by
  decide +kernel

end Node

end Stylesheet
