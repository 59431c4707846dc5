import Stylesheet.Node.Printer
import Stylesheet.Proofs.Flattening

/-!
# Compressed output, item by item

`Node.compressedItems` takes the items of a block apart from the comments
between them, and `Node.joinItems` puts them together when it is known which
of them is the last. Told from the front, compressed output is simpler: a
comment is written or not, every other node is written with the mark that
ends it, and the rest of the block follows (`compressed_comment`,
`compressed_cons`). Whether a declaration is ended depends on what follows it,
and then only on whether there is anything but comments.
-/

set_option autoImplicit false

namespace Stylesheet

namespace Node

/-- What is a comment has a text. -/
theorem exists_eq_comment {n : Node} (h : n.isComment = true) : ∃ t, n = .comment t := by
  cases n with
  | comment t => exact ⟨t, rfl⟩
  | importUrl url media => cases h
  | declaration name value => cases h
  | statement t => cases h
  | rule header children => cases h

section

variable (options : FormatOptions)

/-- A comment as compressed output has it. -/
def keptComment (t : Text) : Text := if options.preserveComments then t else []

/-- What ends an item that `rest` follows. -/
def endMark (rest : List Node) : Ending → Text
  | .closed => []
  | .always => [';']
  | .unlessLast => if rest.all isComment then [] else [';']

/-- A comment waits for the next item, if it is kept. -/
theorem compressedItems_comment (comments t : Text) (rest : List Node) :
    compressedItems options comments (.comment t :: rest)
      = compressedItems options (comments ++ keptComment options t) rest := by
  rw [compressedItems, keptComment]
  split <;> simp

/-- An item takes the comments before it along. -/
theorem compressedItems_cons (comments : Text) {n : Node} (hn : n.isComment = false)
    (rest : List Node) :
    compressedItems options comments (n :: rest)
      = ((comments ++ (compressedItem options n).1, (compressedItem options n).2)
          :: (compressedItems options [] rest).1, (compressedItems options [] rest).2) := by
  rw [compressedItems]
  intro t ht
  subst ht
  cases hn

/-- Items come of all nodes but comments. -/
theorem isEmpty_compressedItems (comments : Text) (nodes : List Node) :
    (compressedItems options comments nodes).1.isEmpty = nodes.all isComment := by
  induction nodes generalizing comments with
  | nil => rfl
  | cons n rest ih =>
      cases hn : n.isComment with
      | true =>
          obtain ⟨t, rfl⟩ := exists_eq_comment hn
          rw [compressedItems_comment, ih]
          rfl
      | false =>
          rw [compressedItems_cons options comments hn, List.all_cons, hn]
          rfl

/-- Comments that wait for an item are written in front. -/
theorem joinItems_append (front comments : Text) (nodes : List Node) :
    joinItems (compressedItems options (front ++ comments) nodes).1
        ++ (compressedItems options (front ++ comments) nodes).2
      = front ++ (joinItems (compressedItems options comments nodes).1
        ++ (compressedItems options comments nodes).2) := by
  induction nodes generalizing comments with
  | nil => simp [compressedItems, joinItems]
  | cons n rest ih =>
      cases hn : n.isComment with
      | true =>
          obtain ⟨t, rfl⟩ := exists_eq_comment hn
          rw [compressedItems_comment, compressedItems_comment, List.append_assoc, ih]
      | false =>
          rw [compressedItems_cons options _ hn, compressedItems_cons options _ hn]
          simp [joinItems]

/-- Nothing is written for nothing. -/
@[simp] theorem compressed_nil : compressed options [] = [] := rfl

/-- A comment that is kept is written as it is. -/
theorem compressed_comment (t : Text) (rest : List Node) :
    compressed options (.comment t :: rest) = keptComment options t ++ compressed options rest := by
  have hfront := joinItems_append options (keptComment options t) [] rest
  rw [List.append_nil] at hfront
  unfold compressed
  rw [compressedItems_comment, List.nil_append]
  exact hfront

/-- An item is written with its mark, which depends on what follows. -/
theorem compressed_cons {n : Node} (hn : n.isComment = false) (rest : List Node) :
    compressed options (n :: rest)
      = (compressedItem options n).1
        ++ (endMark rest (compressedItem options n).2 ++ compressed options rest) := by
  unfold compressed
  rw [compressedItems_cons options _ hn]
  simp only [List.nil_append, joinItems, isEmpty_compressedItems]
  cases (compressedItem options n).2 with
  | closed => simp [endMark]
  | always => simp [endMark]
  | unlessLast =>
      rw [endMark]
      cases rest.all isComment <;> simp

/-- A rule is written with a tightened header, and needs no mark. -/
theorem compressedItem_rule (header : Text) (children : List Node) :
    compressedItem options (.rule header children)
      = (tighten [',', '>'] header ++ '{' :: (compressed options children ++ ['}']), .closed) := by
  rw [compressedItem, compressed]

end

end Node

end Stylesheet
