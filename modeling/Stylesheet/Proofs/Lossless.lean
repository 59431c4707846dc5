import Stylesheet.Proofs.Normalization
import Stylesheet.Proofs.Strings

/-!
# Parsing loses nothing

The parser walks over a text with two marks, where the segment began and
where it is, and makes nodes of what lies between. `essence_compactAll`:
what it has made, written one after the other, is the text, up to blanks and
semicolons. So every other character is in one node, and in its place: also
in texts with strings that are never closed, with brackets that do not fit,
with comments between the words of a header and with empty statements.

Imports are left out. They are rewritten when they are read.
-/

set_option autoImplicit false

namespace Stylesheet

namespace Text

/-- The characters of a text that are neither blanks nor semicolons. -/
def essence (t : Text) : Text := t.filter fun c => !(isBlank c || c == ';')

/-- There is nothing in the empty text. -/
@[simp] theorem essence_nil : essence [] = [] := rfl

/-- The essence of two texts. -/
@[simp] theorem essence_append (s t : Text) : essence (s ++ t) = essence s ++ essence t :=
  List.filter_append ..

/-- The semicolons between nodes do not count. -/
@[simp] theorem essence_semicolon (t : Text) : essence (';' :: t) = essence t := rfl

/-- A character that is neither a blank nor a semicolon is kept. -/
theorem essence_cons {c : Char} (hc : (isBlank c || c == ';') = false) (t : Text) :
    essence (c :: t) = c :: essence t :=
  List.filter_cons_of_pos (by simp [hc])

/-- Nothing is kept of blanks. -/
theorem essence_blank {t : Text} (h : blank t = true) : essence t = [] :=
  filter_blank (fun c hc => by simp [hc]) h

/-- Trimming drops blanks only. -/
@[simp] theorem essence_trim (t : Text) : essence (trim t) = essence t :=
  filter_trim (fun c hc => by simp [hc]) t

/-- Collapsing drops and adds blanks only. -/
@[simp] theorem essence_collapse (t : Text) : essence (collapse t) = essence t :=
  filter_collapse (fun c hc => by simp [hc]) t

end Text

namespace Node

open Text

/-- A segment is in the node that is made of it. -/
theorem essence_segment {segment : Text} {node : Option Node} (h : ofSegment segment = .ok node)
    (himport : NoImport node.toList) : essence (compactAll node.toList) = essence segment := by
  rw [← essence_trim segment]
  cases taken_of_ofSegment h with
  | blank hnil => simp [hnil, compactAll]
  | importUrl hkeyword hn =>
      obtain ⟨url, media, rfl, -⟩ := exists_of_parseImport hn
      cases himport (.importUrl url media) (by simp [descendants, withDescendants])
  | atStatement _ hne hat => simp [compactAll, compact]
  | statement _ hne hat hsplit => simp [compactAll, compact]
  | @declaration front back hat hsplit =>
      obtain ⟨before, behind, hpieces, rfl, rfl, -, -⟩ := exists_of_splitTopOncePieces hsplit
      have htext : trim segment = textOf before ++ ':' :: textOf behind := by
        rw [← text_pieces (trim segment), hpieces, textOf_append, textOf_cons]
        rfl
      have hcolon := essence_cons (c := ':') (by decide)
      simp [compactAll, compact, htext, hcolon]

/-- What was read is in the nodes. The cases are the ways of the parser over
a text: the segment at the end, a comment, a semicolon, and a block. -/
theorem Reads.essence_eq {ps : List Piece} {nodes : List Node} (h : Reads ps nodes)
    (himport : NoImport nodes) : essence (compactAll nodes) = essence (textOf ps) := by
  induction h with
  | last hsegment hnode => exact essence_segment hnode himport
  | @comment gap rest nodes hgap t hrest ih =>
      have hsplit : NoImport ([.comment t] ++ nodes) := himport
      simp [compactAll, compact, Piece.text, essence_blank hgap, ih (noImport_append.mp hsplit).2]
  | semicolon hsegment hnode hrest ih =>
      obtain ⟨hfront, hback⟩ := noImport_append.mp himport
      simp [compactAll_append, Piece.text, essence_segment hnode hfront, ih hback]
  | block hsegment hbraces hinside hrest ihInside ihRest =>
      obtain ⟨hchildren, hnodes⟩ := noImport_rule.mp himport
      have hopen := essence_cons (c := '{') (by decide)
      have hclose := essence_cons (c := '}') (by decide)
      simp [compactAll, compact, Piece.text, ihInside hchildren, ihRest hnodes, hopen, hclose]

/-- Whatever is read from a text without imports is the text, up to blanks
and semicolons. -/
theorem essence_compactAll {text : Text} {nodes : List Node} (hparse : parse text = .ok nodes)
    (himport : NoImport nodes) : essence (compactAll nodes) = essence text := by
  have hread := (reads_of_parse hparse).essence_eq himport
  rwa [text_pieces] at hread

/-- A string that ends with its line and one that never ends, brackets that
close nothing and one that is never closed, comments in a header and in a
value, and empty statements. -/
def unkempt : Text :=
  "/* a ; b */ c /* ; */ > d \x7b ;; x : 'it;s\n ; y  z ( ; \x7d ) ; @charset \"u ;\" ; ".toList
    ++ "\x7b e : /**/ f \x7d g[\x7b : 'h \x7d".toList

/-- Only blanks and semicolons differ between the sheet and what is written. -/
theorem essence_compactAll_unkempt : ∃ nodes, parse unkempt = .ok nodes ∧ NoImport nodes
    ∧ compactAll nodes
      = "/* a ; b */c /* ; */ > d\x7bx:'it;s;y  z ( ;;\x7d);@charset \"u ;\";\x7be:/**/ f;\x7d".toList
        ++ "g[\x7b : 'h \x7d;".toList
    ∧ essence (compactAll nodes) = essence unkempt := by
  have hsheet : (parse unkempt).map (fun nodes => decide (NoImport nodes ∧ compactAll nodes
      = "/* a ; b */c /* ; */ > d\x7bx:'it;s;y  z ( ;;\x7d);@charset \"u ;\";\x7be:/**/ f;\x7d".toList
        ++ "g[\x7b : 'h \x7d;".toList)) = .ok true := by
    decide +kernel
  obtain ⟨nodes, hparse, hnodes⟩ := exists_of_map_ok hsheet
  obtain ⟨himport, htext⟩ := of_decide_eq_true hnodes.symm
  exact ⟨nodes, hparse, himport, htext, essence_compactAll hparse himport⟩

end Node

end Stylesheet
