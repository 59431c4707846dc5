import Stylesheet.Node.Printer
import Stylesheet.Proofs.Statement

/-!
# Printed stylesheets are read back

There are two printers. `Node.compactAll` writes a stylesheet in the
fewest characters, as flattening does, and `Node.pretty` writes it in
lines. `parse_printed`: the parser undoes both, for clean forests of any
depth, so that printing what was read from lines gives the same lines.

Clean is not quite enough. A statement that is empty leaves nothing but a
semicolon, which no node is made of, and one that begins with the keyword
of an import is an import, also if it has no colon. `isReadable` leaves
these two out, and `cleanStatement_lost` shows that they have to be.
-/

set_option autoImplicit false

namespace Stylesheet

namespace Node

/-- Whether a statement is read as one: it is not empty and no
import. -/
def isReadable : Node → Bool
  | statement t => !t.isEmpty && !Text.beginsImport t
  | _ => true

/-- Whatever is in a forest, it is clean and read as what it is. -/
def AllReadable (nodes : List Node) : Prop :=
  ∀ n ∈ descendants nodes, n.IsClean ∧ n.isReadable = true

instance (nodes : List Node) : Decidable (AllReadable nodes) :=
  inferInstanceAs (Decidable (∀ n ∈ descendants nodes, n.IsClean ∧ n.isReadable = true))

/-- There is nothing in the empty forest. -/
theorem AllReadable.nil : AllReadable [] := by
  intro n hn
  cases hn

/-- Two forests. -/
theorem allReadable_append {nodes nodes' : List Node} :
    AllReadable (nodes ++ nodes') ↔ AllReadable nodes ∧ AllReadable nodes' := by
  rw [AllReadable, descendants_append, List.forall_mem_append]
  rfl

/-- The first tree and the others. -/
theorem allReadable_cons {n : Node} {rest : List Node} :
    AllReadable (n :: rest) ↔ AllReadable [n] ∧ AllReadable rest := by
  rw [← List.singleton_append, allReadable_append]

/-- Tree by tree. -/
theorem allReadable_iff {nodes : List Node} :
    AllReadable nodes ↔ ∀ n ∈ nodes, AllReadable [n] := by
  induction nodes with
  | nil => exact ⟨fun _ => List.forall_mem_nil _, fun _ => .nil⟩
  | cons n rest ih => rw [allReadable_cons, ih, List.forall_mem_cons]

/-- A rule and what is in it. -/
theorem allReadable_rule {header : Text} {children : List Node} :
    AllReadable [rule header children]
      ↔ (Text.IsClean header ∧ Text.beginsComment header = false) ∧ AllReadable children := by
  simp [AllReadable, descendants, withDescendants, IsClean, isReadable]

/-- A node other than a rule is all that there is in it. -/
theorem AllReadable.head {n : Node} {rest : List Node} (h : AllReadable (n :: rest)) :
    n.IsClean ∧ n.isReadable = true := by
  refine h n ?_
  cases n <;> simp [descendants, withDescendants]

/-- A statement that is clean and readable is read back. -/
theorem ReadsAs.ofStatement {t : Text} (h : (Node.statement t).IsClean)
    (hread : (Node.statement t).isReadable = true) : ReadsAs [.statement t] (t ++ [';']) := by
  have hread' : (!t.isEmpty) = true ∧ (!Text.beginsImport t) = true := by
    simpa [isReadable] using hread
  exact .statement h (by simpa using hread'.1) (by simpa using hread'.2)

/-! ### In the fewest characters -/

/-- The empty text is blank. -/
theorem blank_nil : Text.blank [] = true := rfl

mutual

/-- A node on one line is read back. -/
theorem readsAs_compact (n : Node) (h : AllReadable [n]) : ReadsAs [n] n.compact := by
  obtain ⟨hclean, hread⟩ := h.head
  cases n with
  | comment t => exact .comment (Text.IsComment.pieces_eq hclean) (Text.IsComment.closed hclean)
  | importUrl url media => exact .importClean hclean.1 hclean.2
  | declaration name value => simpa [compact] using ReadsAs.declaration hclean blank_nil
  | statement t => exact .ofStatement hclean hread
  | rule header children =>
      have hchildren := readsAs_compactAll children (allReadable_rule.mp h).2
      exact .rule hclean.1 hclean.2 blank_nil hchildren

/-- Nodes on one line are read back. -/
theorem readsAs_compactAll (nodes : List Node) (h : AllReadable nodes) :
    ReadsAs nodes (compactAll nodes) := by
  cases nodes with
  | nil => exact .gap blank_nil
  | cons n rest =>
      obtain ⟨hn, hrest⟩ := allReadable_cons.mp h
      exact (readsAs_compact n hn).append (readsAs_compactAll rest hrest)

end

/-! ### In lines -/

/-- The blanks before a line. -/
theorem blank_indent (depth : Nat) : Text.blank (indent depth) = true := by
  rw [Text.blank_iff]
  intro c hc
  rw [List.eq_of_mem_replicate hc]
  rfl

/-- A node between the blanks of its line. -/
theorem ReadsAs.padded {nodes : List Node} {t : Text} {nested : Bool} (h : ReadsAs nodes t nested)
    (depth : Nat) : ReadsAs nodes (indent depth ++ (t ++ ['\n'])) nested := by
  have hpadded := (ReadsAs.gap (blank_indent depth)).append (h.append (.gap (t := ['\n']) rfl))
  simpa using hpadded

mutual

/-- A node in lines is read back, at any depth. -/
theorem readsAs_prettyNode (depth : Nat) (n : Node) (h : AllReadable [n]) :
    ReadsAs [n] (prettyNode depth n) := by
  obtain ⟨hclean, hread⟩ := h.head
  cases n with
  | comment t =>
      have hcomment : ReadsAs [.comment t] t :=
        .comment (Text.IsComment.pieces_eq hclean) (Text.IsComment.closed hclean)
      simpa [prettyNode] using hcomment.padded depth
  | importUrl url media =>
      simpa [prettyNode] using (ReadsAs.importClean hclean.1 hclean.2).padded depth
  | declaration name value =>
      have hspace : Text.blank [' '] = true := rfl
      -- The printer collapses the value once more, to the same value.
      have hvalue : Text.collapse value = value := hclean.2.2.2.2.collapsed
      simpa [prettyNode, hvalue] using (ReadsAs.declaration hclean hspace).padded depth
  | statement t =>
      have ht : Text.collapse t = t := hclean.1.collapsed
      simpa [prettyNode, ht] using (ReadsAs.ofStatement hclean hread).padded depth
  | rule header children =>
      have hspace : Text.blank [' '] = true := rfl
      have hchildren := readsAs_prettyNodes (depth + 1) children (allReadable_rule.mp h).2
      -- Inside the braces: the end of the line, the children, and the blanks before the brace.
      have hinside := (ReadsAs.gap (t := ['\n']) rfl).append
        (hchildren.append (.gap (blank_indent depth)))
      rw [List.append_nil, List.nil_append] at hinside
      simpa [prettyNode] using (ReadsAs.rule hclean.1 hclean.2 hspace hinside).padded depth

/-- The nodes of a block in lines are read back. -/
theorem readsAs_prettyNodes (depth : Nat) (nodes : List Node) (h : AllReadable nodes) :
    ReadsAs nodes (prettyNodes depth nodes) := by
  cases nodes with
  | nil => exact .gap blank_nil
  | cons n rest =>
      obtain ⟨hn, hrest⟩ := allReadable_cons.mp h
      exact (readsAs_prettyNode depth n hn).append (readsAs_prettyNodes depth rest hrest)

end

/-- The blank line before a rule is lost. -/
theorem readsAs_prettyFollowing (n : Node) (h : AllReadable [n]) :
    ReadsAs [n] (prettyFollowing n) := by
  unfold prettyFollowing
  split
  · exact (ReadsAs.gap (t := ['\n']) rfl).append (readsAs_prettyNode 0 n h)
  · exact readsAs_prettyNode 0 n h

/-- A forest in lines is read back. -/
theorem readsAs_pretty (nodes : List Node) (h : AllReadable nodes) :
    ReadsAs nodes (pretty nodes) := by
  have hfollowing : ∀ rest, AllReadable rest → ReadsAs rest (rest.flatMap prettyFollowing) := by
    intro rest hrest
    induction rest with
    | nil => exact .gap blank_nil
    | cons n rest ih =>
        obtain ⟨hn, hrest'⟩ := allReadable_cons.mp hrest
        rw [List.flatMap_cons]
        exact (readsAs_prettyFollowing n hn).append (ih hrest')
  cases nodes with
  | nil => exact .gap blank_nil
  | cons n rest =>
      obtain ⟨hn, hrest⟩ := allReadable_cons.mp h
      exact (readsAs_prettyNode 0 n hn).append (hfollowing rest hrest)

/-! ### The round trip -/

/-- A text that is read as some nodes wherever it stands is read as these
alone. -/
theorem ReadsAs.parse_eq {nodes : List Node} {t : Text} (h : ReadsAs nodes t) :
    parse t = .ok nodes :=
  h.fills.run [] [] rfl

/-- Braces and semicolons in literals, a rule without a header, an empty
value, and comments inside and between segments. -/
def printed : List Node :=
  [.importUrl "a.css".toList "screen and (min-width: 1px)".toList, .comment "/* a;b */".toList,
    .rule "@media print".toList
      [.rule "a[href=\"\x7d\"], b /*;*/ > c".toList
        [.declaration "content".toList "\"\\\";\" attr(x)".toList, .comment "/**/".toList,
          .statement "@extend .y:hover".toList, .rule [] [], .declaration "x".toList []]],
    .statement "@charset \"utf-8\"".toList]

/-- Reading undoes both printers, and lines are printed again as they
were. -/
theorem parse_printed (nodes : List Node) (hclean : AllClean nodes)
    (hread : ∀ n ∈ descendants nodes, n.isReadable = true) :
    parse (pretty nodes) = .ok nodes ∧ parse (compactAll nodes) = .ok nodes
      ∧ (parse (pretty nodes)).map pretty = .ok (pretty nodes) := by
  have hall : AllReadable nodes := fun n hn => ⟨hclean n hn, hread n hn⟩
  have hpretty := (readsAs_pretty nodes hall).parse_eq
  refine ⟨hpretty, (readsAs_compactAll nodes hall).parse_eq, ?_⟩
  rw [hpretty]
  rfl

/-- All kinds of nodes are read back. -/
theorem parse_printed_sample :
    AllClean printed ∧ (∀ n ∈ descendants printed, n.isReadable = true)
      ∧ parse (pretty printed) = .ok printed ∧ parse (compactAll printed) = .ok printed
      ∧ (parse (pretty printed)).map pretty = .ok (pretty printed) :=
  have hclean : AllClean printed := by decide +kernel
  have hread : ∀ n ∈ descendants printed, n.isReadable = true := by decide +kernel
  ⟨hclean, hread, parse_printed printed hclean hread⟩

/-- Two clean forests that are not read back: an empty statement leaves
nothing behind, and one that looks like an import is one. -/
theorem cleanStatement_lost :
    (AllClean [.statement []] ∧ parse (compactAll [.statement []]) ≠ .ok [.statement []])
      ∧ AllClean [.statement "@import foo".toList]
      ∧ parse (compactAll [.statement "@import foo".toList])
          ≠ .ok [.statement "@import foo".toList] := by
  have hempty : (parse (compactAll [.statement []])).map List.length = .ok 0 := by
    decide +kernel
  have himport : (parse (compactAll [.statement "@import foo".toList])).map (·.map isReadable)
      = .ok [true] := by
    decide +kernel
  refine ⟨⟨by decide +kernel, ?_⟩, by decide +kernel, ?_⟩
  · intro h
    rw [h] at hempty
    cases hempty
  · intro h
    rw [h] at himport
    cases himport

end Node

end Stylesheet
