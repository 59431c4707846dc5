import Stylesheet.Node.Printer
import Stylesheet.Proofs.Parsed
import Stylesheet.Proofs.Tightening

/-!
# Imports that survive printing

The parser takes the target of an import in many spellings, and the
printers write all of them in one: between apostrophes. So an import may be
printed as something else than it was. `parse_printed_import_iff` says when
it is read back, by its target and its media alone (`Survives`): nothing in
the target ends the string before the closing apostrophe or takes that
along; the target neither begins nor ends with what quotes are stripped of;
the first bytes do not end inside a character; and the media stay in the
segment.

One half follows the parser along what is printed. For the other half, let
the import be read back. Then the number of characters that are neither
blank nor a quote shows that the whole statement without its semicolon was
the segment (`exists_of_reads_import`), and so the string in it cannot have
been shorter or longer than the target.
-/

set_option autoImplicit false

namespace Stylesheet

namespace Text

/-! ### The first bytes -/

/-- A text is cut at a byte in the same way, whatever stands behind it. -/
theorem splitAtByte_append {n : Nat} {s : Text} (h : n ≤ size s) (r : Text) :
    (splitAtByte n (s ++ r)).1 = (splitAtByte n s).1 := by
  induction s generalizing n with
  | nil =>
      obtain rfl := Nat.le_zero.mp h
      cases r <;> rfl
  | cons c s ih =>
      cases n with
      | zero => rfl
      | succ n =>
          rw [size_cons] at h
          have hrest := ih (n := n + 1 - c.utf8Size) (by omega)
          simp only [List.cons_append, splitAtByte, hrest]

/-- Whether a position is a place shows in the text before it. -/
theorem isPlace_append_right {n : Nat} {s : Text} (h : n ≤ size s) (r : Text) :
    Node.isPlace n (s ++ r) = Node.isPlace n s := by
  rw [Node.isPlace, Node.isPlace, splitAtByte_append h]

/-- Tightening keeps the first character of a trimmed text. -/
theorem head?_tighten {around : List Char} {t : Text} (hclosed : ∀ p ∈ pieces t, p.closed = true)
    (hends : HasEnds t) : (tighten around t).head? = t.head? := by
  have htight := tightened around hclosed
  generalize tighten around t = w at htight
  cases htight with
  | whole hclosed hmarks => rfl
  | @mark u gap gap' v w m hclosed' hmarks hlast hgap hm hgap' hhead hv =>
      cases u with
      | cons c u => rfl
      | nil =>
          cases gap with
          | nil => rfl
          | cons c gap =>
              -- A gap in front of the first mark would begin the text.
              have hc := hends.head c rfl
              rw [blank_iff.mp hgap c List.mem_cons_self] at hc
              cases hc

end Text

namespace Node

/-- The first bytes of the media are those of its first character. -/
theorem IsUncut.congr {url media media' : Text} (h : IsUncut url media)
    (hhead : media'.head? = media.head?) : IsUncut url media' := by
  -- With a first character of the media, the four bytes end in it at the latest.
  have hsize : ∀ c : Char, 4 ≤ Text.size (apostrophe :: (url ++ [apostrophe, ' ', c])) := by
    intro c
    have hc := c.utf8Size_pos
    have ha : apostrophe.utf8Size = 1 := rfl
    have hs : ' '.utf8Size = 1 := rfl
    simp only [Text.size_cons, Text.size_append, Text.size_nil]
    omega
  have htext : ∀ (c : Char) (m : Text), apostrophe :: (url ++ apostrophe :: mediaTail (c :: m))
      = apostrophe :: (url ++ [apostrophe, ' ', c]) ++ m := by
    intro c m
    simp [mediaTail]
  cases media with
  | nil =>
      obtain rfl : media' = [] := List.head?_eq_none_iff.mp hhead
      exact h
  | cons c m =>
      obtain ⟨m', rfl⟩ := List.head?_eq_some_iff.mp hhead
      intro _
      rw [htext, Text.isPlace_append_right (hsize c), ← Text.isPlace_append_right (hsize c) m,
        ← htext]
      apply h
      rw [htext, Text.size_append]
      exact Nat.le_add_right_of_le (hsize c)

/-- Tightening the media of an import keeps what it takes to read it back. It
goes on beginning with the same character, so the first four bytes stay. -/
theorem Survives.tighten {nested : Bool} {url media : Text} (h : Survives nested url media)
    (hmedia : Text.HasEnds media) : Survives nested url (tighten [','] media) := by
  have hmarks : [','] ⊆ tightMarks := by simp [tightMarks]
  refine ⟨h.body, h.bare, h.uncut.congr (Text.head?_tighten h.closed hmedia),
    closed_tighten hmarks h.closed, ?_⟩
  rw [(tightened [','] h.closed).passed_eq hmarks]
  exact h.passed

instance (nested : Bool) (url media : Text) : Decidable (Survives nested url media) :=
  decidable_of_iff (Literal.insideString apostrophe false url = some false ∧ unquote url = url
      ∧ IsUncut url media ∧ (∀ p ∈ pieces media, p.closed = true)
      ∧ passed nested 0 (pieces media) = some 0)
    ⟨fun ⟨hbody, hbare, huncut, hclosed, hpassed⟩ =>
        ⟨Literal.stringBody_iff.mpr hbody, hbare, huncut, hclosed, hpassed⟩,
      fun h => ⟨Literal.stringBody_iff.mp h.body, h.bare, h.uncut, h.closed, h.passed⟩⟩

/-! ### Read back -/

/-- A text that can be all of a block can be all of a stylesheet. -/
theorem FillsAs.parse_eq {nodes : List Node} {t : Text} {nested : Bool} (h : FillsAs nodes t nested) :
    parse t = .ok nodes :=
  h.run [] [] rfl

section

variable {url media : Text} (h : Survives false url media) (hmedia : Text.IsCollapsed media)

include h hmedia

/-- On one line the import is read back. -/
theorem parse_compact_import : parse (compact (.importUrl url media)) = .ok [.importUrl url media] := by
  rw [compact]
  exact (ReadsAs.importUrl h hmedia).fills.parse_eq

/-- In lines too. -/
theorem parse_pretty_import : parse (pretty [.importUrl url media]) = .ok [.importUrl url media] := by
  have hline : ReadsAs [] ['\n'] false := .gap rfl
  have hread := ((ReadsAs.importUrl h hmedia).append hline).fills.parse_eq
  simpa [pretty, prettyNode, indent] using hread

/-- Compressed, it is read back with tightened media. -/
theorem parse_compressed_import (options : FormatOptions) :
    parse (compressed options [.importUrl url media])
      = .ok [.importUrl url (tighten [','] media)] := by
  have hcollapsed : Text.IsCollapsed (tighten [','] media) :=
    isCollapsed_tighten (by simp [tightMarks]) h.closed hmedia
  have hread := (ReadsAs.importUrl (h.tighten hmedia.toHasEnds) hcollapsed).fills.parse_eq
  simpa [compressed, compressedItems, compressedItem, joinItems] using hread

end

end Node

/-! ### What is not lost -/

namespace Text

section

variable {p : Char → Bool}

/-- Characters that are no blanks are not trimmed. -/
theorem countP_trim (hp : ∀ c, isBlank c = true → p c = false) (t : Text) :
    (trim t).countP p = t.countP p := by
  rw [List.countP_eq_length_filter, filter_trim hp, ← List.countP_eq_length_filter]

/-- Nor does collapsing drop any. -/
theorem countP_collapse (hp : ∀ c, isBlank c = true → p c = false) (t : Text) :
    (collapse t).countP p = t.countP p := by
  rw [List.countP_eq_length_filter, filter_collapse hp, ← List.countP_eq_length_filter]

/-- The same for any characters that are dropped at both ends. -/
theorem countP_trimWhere {q : Char → Bool} (hp : ∀ c, q c = true → p c = false) (t : Text) :
    (trimWhere q t).countP p = t.countP p := by
  have hdrop : ∀ s : Text, (s.dropWhile q).countP p = s.countP p := by
    intro s
    have hzero : (s.takeWhile q).countP p = 0 := by
      rw [List.countP_eq_zero]
      intro c hc
      rw [hp c (List.mem_takeWhile_imp hc)]
      decide
    conv_rhs => rw [← List.takeWhile_append_dropWhile (p := q) (l := s), List.countP_append, hzero]
    omega
  rw [trimWhere, List.countP_reverse, hdrop, List.countP_reverse, hdrop]

/-- Trimming makes no text longer. -/
theorem length_trimWhere_le (t : Text) : (trimWhere p t).length ≤ t.length := by
  have hback := (List.dropWhile_suffix (l := (t.dropWhile p).reverse) p).length_le
  have hfront := (List.dropWhile_suffix (l := t) p).length_le
  rw [List.length_reverse] at hback
  rw [trimWhere, List.length_reverse]
  omega

end

/-- How many characters are neither quotes nor blanks. -/
def solids (t : Text) : Nat := t.countP fun c => !(isQuote c || isBlank c)

/-- The count over two texts. -/
theorem solids_append (s t : Text) : solids (s ++ t) = solids s + solids t := List.countP_append

/-- A character that counts. -/
theorem solids_cons_of_pos {c : Char} (hc : (isQuote c || isBlank c) = false) (t : Text) :
    solids (c :: t) = solids t + 1 :=
  List.countP_cons_of_pos (by simp [hc])

/-- A quote or a blank does not. -/
theorem solids_cons_of_neg {c : Char} (hc : (isQuote c || isBlank c) = true) (t : Text) :
    solids (c :: t) = solids t :=
  List.countP_cons_of_neg (by simp [hc])

/-- Collapsing drops and adds blanks only. -/
theorem solids_collapse (t : Text) : solids (collapse t) = solids t :=
  countP_collapse (fun c hc => by simp [hc]) t

/-- Trimming drops blanks only. -/
theorem solids_trim (t : Text) : solids (trim t) = solids t :=
  countP_trim (fun c hc => by simp [hc]) t

/-- Unquoting drops quotes and blanks only. -/
theorem solids_unquote (t : Text) : solids (unquote t) = solids t :=
  countP_trimWhere (fun c hc => by simp [hc]) t

end Text

namespace Node

/-- The media and the blank before them. -/
theorem solids_mediaTail (media : Text) : Text.solids (mediaTail media) = Text.solids media := by
  cases media with
  | nil => rfl
  | cons c media => exact Text.solids_cons_of_neg (by decide) _

/-- What the parser takes from a quoted target. -/
theorem exists_of_parseImport_quote {behind r : Text} {n : Node}
    (htrim : Text.trim behind = apostrophe :: r) (h : parseImport behind = .ok n) :
    (4 ≤ Text.size (apostrophe :: r) → isPlace 4 (apostrophe :: r) = true)
      ∧ n = .importUrl (unquote (apostrophe :: (Literal.takeString apostrophe r).1))
          (Text.collapse (Literal.takeString apostrophe r).2) := by
  have hletters : Text.afterLetters? "url(".toList (apostrophe :: r) = none := rfl
  have hquote : isQuote apostrophe = true := rfl
  have htake := Literal.take?_quote hquote r
  unfold parseImport at h
  simp only [htrim, hletters, hquote, htake, if_true, Piece.text] at h
  split at h
  · cases h
  · rename_i hplace
    refine ⟨fun hlong => ?_, (Except.ok.inj h).symm⟩
    rw [decide_eq_true hlong, Bool.true_and] at hplace
    simpa using hplace

/-- What is read from a segment that begins as the printed import does:
no character is lost but quotes and blanks. -/
theorem exists_of_ofSegment_import {x : Text} {node : Option Node}
    (h : ofSegment ("@import".toList ++ ' ' :: apostrophe :: x) = .ok node) :
    ∃ url media, node = some (.importUrl url media)
      ∧ Text.solids url + Text.solids media = Text.solids x := by
  have hquote : Text.trimStart (apostrophe :: x) = apostrophe :: x :=
    Text.trimStart_eq_self (by simp; decide)
  obtain ⟨r, hr⟩ : ∃ r, Text.trim (apostrophe :: x) = apostrophe :: r := by
    rw [Text.trim, hquote]
    cases hblank : Text.blank x with
    | true => exact ⟨[], Text.trimEnd_append hblank [apostrophe]⟩
    | false => exact ⟨_, Text.trimEnd_append_of_not_blank hblank [apostrophe]⟩
  have hbehind : Text.trim (' ' :: apostrophe :: r) = apostrophe :: r := by
    have hends := Text.hasEnds_trim (apostrophe :: x)
    rw [hr] at hends
    have hgap : Text.blank [' '] = true := rfl
    exact Text.trim_behind hends hgap
  have htrim : Text.trim ("@import".toList ++ ' ' :: apostrophe :: x)
      = "@import".toList ++ ' ' :: apostrophe :: r := by
    have hhead : ∀ c ∈ ("@import".toList ++ ' ' :: apostrophe :: x).head?, isBlank c = false := by
      rw [keyword_eq, List.cons_append, List.head?_cons]
      simp only [Option.mem_some, forall_eq']
      decide
    have hnot : Text.blank (apostrophe :: x) = false := rfl
    rw [Text.trim, Text.trimStart_eq_self hhead, List.append_cons,
      Text.trimEnd_append_of_not_blank hnot, ← hquote, ← Text.trim, hr, ← List.append_cons]
  -- What is behind the keyword is trimmed once more.
  rw [ofSegment_keyword htrim (r := ' ' :: apostrophe :: r) rfl] at h
  obtain ⟨n, hn, rfl⟩ := exists_of_map_ok h
  obtain ⟨-, rfl⟩ := exists_of_parseImport_quote hbehind hn
  refine ⟨_, _, rfl, ?_⟩
  have hsolids := Text.solids_trim (apostrophe :: x)
  rw [hr, Text.solids_cons_of_neg rfl, Text.solids_cons_of_neg rfl] at hsolids
  have htake := congrArg Text.solids (Literal.takeString_append apostrophe r)
  rw [Text.solids_append] at htake
  rw [Text.solids_unquote, Text.solids_cons_of_neg rfl, Text.solids_collapse]
  omega

/-- A semicolon can only stand behind the quote that opens the target. -/
theorem exists_behind_opening {s r x : Text}
    (h : s ++ ';' :: r = "@import".toList ++ ' ' :: apostrophe :: x) :
    ∃ front, s = "@import".toList ++ ' ' :: apostrophe :: front ∧ x = front ++ ';' :: r := by
  have hopening : ';' ∉ "@import".toList ++ [' ', apostrophe] := by decide +kernel
  have hcut : s ++ ';' :: r = "@import".toList ++ [' ', apostrophe] ++ x := by
    rw [h]
    simp
  rcases List.append_eq_append_iff.mp hcut with ⟨a, ha, hx⟩ | ⟨front, hs, hx⟩
  · cases a with
    | nil => exact ⟨[], by simpa using ha.symm, by simpa using hx.symm⟩
    | cons d a =>
        obtain rfl : ';' = d := (List.cons.inj hx).1
        exact absurd (by rw [ha]; simp) hopening
  · exact ⟨front, by simpa using hs, hx⟩

/-- The segment that is read back as the import is all that is printed
before the semicolon: a shorter one would have lost characters. -/
theorem exists_of_reads_import {url media : Text}
    (h : Reads (pieces (compact (.importUrl url media))) [.importUrl url media]) :
    ∃ segment, Gathered 0 segment
      ∧ pieces (renderImport url media ++ [';']) = segment ++ [.plain ';']
      ∧ ofSegment (renderImport url media) = .ok (some (.importUrl url media)) := by
  rw [compact] at h
  have htext : renderImport url media ++ [';'] = "@import".toList
      ++ ' ' :: apostrophe :: (url ++ apostrophe :: mediaTail media ++ [';']) := by
    rw [renderImport_eq]
    simp
  have hsolids : Text.solids (url ++ apostrophe :: mediaTail media ++ [';'])
      = Text.solids url + Text.solids media + 1 := by
    rw [Text.solids_append, Text.solids_append, Text.solids_cons_of_neg rfl, solids_mediaTail]
    rfl
  generalize hps : pieces (renderImport url media ++ [';']) = ps at h
  have hspelled : textOf ps = renderImport url media ++ [';'] := by rw [← hps, text_pieces]
  generalize hnodes : [Node.importUrl url media] = nodes at h
  cases h with
  | @last depth segment node hsegment hnode =>
      rw [hspelled, htext] at hnode
      obtain ⟨url', media', rfl, hcount⟩ := exists_of_ofSegment_import hnode
      obtain ⟨rfl, rfl⟩ : url = url' ∧ media = media' := by simpa using hnodes
      -- The segment has the semicolon in it, which is in neither the target nor the media.
      omega
  | comment hgap t hrest => cases hnodes
  | @semicolon segment rest node nodes hsegment hnode hrest =>
      rw [textOf_append, textOf_cons, Piece.text, List.singleton_append, htext] at hspelled
      obtain ⟨x, hx, hbehind⟩ := exists_behind_opening hspelled
      rw [hx] at hnode
      obtain ⟨url', media', rfl, hcount⟩ := exists_of_ofSegment_import hnode
      obtain ⟨⟨rfl, rfl⟩, rfl⟩ : (url = url' ∧ media = media') ∧ nodes = [] := by
        simpa [eq_comm] using hnodes
      -- Behind the semicolon there is nothing: the text ends with one.
      have hnil : textOf rest = [] := by
        rcases List.eq_nil_or_concat (textOf rest) with hnil | ⟨front, c, hfront⟩
        · exact hnil
        · rw [hfront, List.concat_eq_append, ← List.cons_append, ← List.append_assoc] at hbehind
          obtain ⟨heq, hc⟩ := List.append_inj' hbehind rfl
          have hlost := congrArg Text.solids heq
          rw [Text.solids_append, Text.solids_append, Text.solids_cons_of_neg rfl, solids_mediaTail,
            Text.solids_cons_of_pos rfl] at hlost
          omega
      have hrow : IsRow rest := by
        have hrow := isRow_pieces (renderImport url media ++ [';'])
        rw [hps] at hrow
        exact hrow.behind.tail
      obtain rfl : rest = [] := by
        rw [← hrow, hnil, pieces]
      obtain ⟨rfl, -⟩ := List.append_inj' hbehind rfl
      have hline : textOf segment = renderImport url media := by
        rw [hx, renderImport_eq]
      rw [← hx, hline] at hnode
      exact ⟨segment, hsegment, rfl, hnode⟩
  | block hsegment hbraces hinside hrest => cases hnodes

/-- A string takes the first character along, which does not come back by
collapsing. -/
theorem collapse_takeString_ne (q : Char) {c : Char} (hc : isBlank c = false) (t : Text) :
    Text.collapse (Literal.takeString q (c :: t)).2 ≠ c :: t := by
  intro h
  obtain ⟨r, hr⟩ : ∃ r, (Literal.takeString q (c :: t)).1 = c :: r := by
    have hline : c ≠ '\n' := (Text.ne_of_isBlank (by decide) hc).symm
    cases t with
    | nil => exact ⟨[], by simp [Literal.takeString, hline]⟩
    | cons d t =>
        by_cases hback : c = '\\'
        · subst hback
          exact ⟨_, congrArg Prod.fst (Literal.takeString_escape d t)⟩
        · by_cases hquote : c = q
          · subst hquote
            exact ⟨[], by simp [Literal.takeString, hback, hline]⟩
          · exact ⟨_, congrArg Prod.fst (Literal.takeString_cons hback hline hquote _)⟩
  have hkept := Text.countP_collapse (p := (!isBlank ·)) (by simp)
    (Literal.takeString q (c :: t)).2
  have hsplit := congrArg (List.countP (!isBlank ·)) (Literal.takeString_append q (c :: t))
  rw [hr, List.countP_append, List.countP_cons_of_pos (by simp [hc])] at hsplit
  rw [h] at hkept
  omega

/-- The string that is read as the target is the one that was printed. -/
theorem stringBody_of_take {url media : Text} (hmedia : Text.IsCollapsed media) {c : Char}
    (hlast : (pieces (Text.quoted url ++ mediaTail media ++ [';'])).getLast? = some (.plain c))
    (hurl : unquote (apostrophe
      :: (Literal.takeString apostrophe (url ++ apostrophe :: mediaTail media)).1) = url)
    (hrest : Text.collapse (Literal.takeString apostrophe (url ++ apostrophe :: mediaTail media)).2
      = media) : Literal.StringBody apostrophe url := by
  rcases Literal.stringBody_cases apostrophe url with hbody | ⟨body, rfl, hbody⟩
    | ⟨body, d, rest, rfl, hbody, hd⟩
  · exact hbody
  · -- The backslash takes the closing quote along, so the string goes on in the media.
    rw [List.append_assoc, List.singleton_append, hbody.takeString_append,
      Literal.takeString_escape] at hrest
    cases media with
    | nil =>
        have htake := Literal.take?_quote (q := apostrophe) rfl (body ++ '\\' :: apostrophe :: [';'])
        rw [hbody.takeString_append, Literal.takeString_escape] at htake
        have hall : pieces (Text.quoted (body ++ ['\\']) ++ mediaTail [] ++ [';'])
            = [.string (apostrophe :: (body ++ '\\' :: apostrophe :: [';']))] := by
          simp only [Text.quoted, mediaTail, List.isEmpty_nil, if_true, List.append_assoc,
            List.cons_append, List.nil_append]
          rw [pieces_of_take? htake]
          exact congrArg _ pieces.eq_1
        rw [hall] at hlast
        cases hlast
    | cons d m =>
        have hd : isBlank d = false := hmedia.head d rfl
        have hspace : Literal.takeString apostrophe (mediaTail (d :: m))
            = (' ' :: (Literal.takeString apostrophe (d :: m)).1,
              (Literal.takeString apostrophe (d :: m)).2) :=
          Literal.takeString_cons (by decide) (by decide) (by decide) (d :: m)
        rw [hspace] at hrest
        exact absurd hrest (collapse_takeString_ne apostrophe hd m)
  · -- The string ends inside the target, so what is read is shorter.
    have hshort : unquote body = body ++ d :: rest := by
      rw [List.append_assoc, List.cons_append] at hurl
      rcases hd with rfl | rfl
      · rw [hbody.takeString_eq rfl] at hurl
        rw [← hurl]
        exact (Text.unquote_quoted body).symm
      · rw [hbody.takeString_append, Literal.takeString_line] at hurl
        rw [← hurl]
        exact (Text.trimWhere_append (List.forall_mem_singleton.mpr rfl) (by simp) body).symm
    have hlength : (unquote body).length ≤ body.length := Text.length_trimWhere_le body
    rw [hshort, List.length_append, List.length_cons] at hlength
    omega

/-- The characters of the keyword come first. -/
theorem pieces_renderImport (url media back : Text) :
    pieces (renderImport url media ++ back)
      = ("@import".toList ++ [' ']).map .plain
        ++ pieces (Text.quoted url ++ (mediaTail media ++ back)) := by
  have hkeyword : pieces ("@import".toList ++ [' ']) = ("@import".toList ++ [' ']).map .plain := by
    decide +kernel
  have hclosed : ∀ p ∈ pieces ("@import".toList ++ [' ']), p.closed = true := by
    rw [hkeyword]
    simp [Piece.closed]
  have htext : renderImport url media ++ back
      = "@import".toList ++ [' '] ++ (Text.quoted url ++ (mediaTail media ++ back)) := by
    rw [renderImport_eq]
    simp [Text.quoted]
  rw [htext, pieces_append_of_head hclosed (by simp [Text.quoted, apostrophe]), hkeyword]

/-- Before a semicolon that is no part of a literal, the media are
complete. -/
theorem exists_of_pieces_media {media : Text} (hmedia : Text.IsCollapsed media) {ps : List Piece}
    (h : pieces (mediaTail media ++ [';']) = ps ++ [.plain ';']) :
    pieces (mediaTail media) = ps ∧ ∀ p ∈ ps, p.closed = true := by
  -- Collapsed media are one line, so only the last
  -- literal could be open, and a semicolon follows it.
  have hline : '\n' ∉ mediaTail media ++ [';'] := by
    intro hmem
    have hmem : '\n' ∈ media := by
      cases media with
      | nil => simp [mediaTail] at hmem
      | cons c media => simpa [mediaTail] using hmem
    have hspace := hmedia.space '\n' hmem rfl
    cases hspace
  have hclosed : ∀ p ∈ ps, p.closed = true := by
    intro p hp
    refine closed_of_getLast? (c := ';') ?_ hline p ?_
    · rw [h, List.getLast?_concat]
    · rw [h]
      exact List.mem_append_left _ hp
  have hrow : IsRow ps := by
    have hrow := isRow_pieces (mediaTail media ++ [';'])
    rw [h] at hrow
    exact hrow.front
  have htext : textOf ps = mediaTail media := by
    have htext := congrArg textOf h
    rw [text_pieces, textOf_append] at htext
    exact (List.append_inj' htext rfl).1.symm
  rw [← htext]
  exact ⟨hrow, hclosed⟩

/-- In an import that is read back, the media end before the semicolon. -/
theorem closed_of_gathered {url media : Text} {segment : List Piece}
    (hbody : Literal.StringBody apostrophe url) (hmedia : Text.IsCollapsed media)
    (hsegment : Gathered 0 segment)
    (hpieces : pieces (renderImport url media ++ [';']) = segment ++ [.plain ';']) :
    (∀ p ∈ pieces media, p.closed = true) ∧ passed false 0 (pieces media) = some 0 := by
  have htake := (Text.isClosedString_quoted hbody).take? (mediaTail media ++ [';'])
  rw [pieces_renderImport, pieces_of_take? htake] at hpieces
  -- The semicolon that ends the segment is the one behind the media.
  obtain ⟨ps, hps⟩ : ∃ ps, pieces (mediaTail media ++ [';']) = ps ++ [.plain ';'] := by
    rcases List.eq_nil_or_concat (pieces (mediaTail media ++ [';'])) with hnil | ⟨ps, p, hps⟩
    · exact absurd hnil (pieces_ne_nil (by simp))
    · rw [hps, List.concat_eq_append, ← List.cons_append, ← List.append_assoc] at hpieces
      obtain ⟨-, hp⟩ := List.append_inj' hpieces rfl
      rw [hps, List.concat_eq_append, hp]
      exact ⟨ps, rfl⟩
  obtain ⟨htail, hclosed⟩ := exists_of_pieces_media hmedia hps
  -- Up to the media no bracket is opened.
  have hpassed : passed false 0 ps = some 0 := by
    rw [hps, ← List.cons_append, ← List.append_assoc] at hpieces
    obtain ⟨hsegmentEq, -⟩ := List.append_inj' hpieces rfl
    have hall := hsegment.passed
    have hkeyword : passed false 0 (("@import".toList ++ [' ']).map .plain) = some 0 := by
      decide +kernel
    rw [← hsegmentEq, passed_append, hkeyword] at hall
    exact hall
  cases media with
  | nil =>
      rw [pieces]
      exact ⟨by simp, rfl⟩
  | cons c media =>
      have hspace : pieces (mediaTail (c :: media)) = .plain ' ' :: pieces (c :: media) :=
        pieces_cons (by decide) (by decide) _
      rw [← htail, hspace] at hclosed hpassed
      exact ⟨(List.forall_mem_cons.mp hclosed).2, hpassed⟩

/-- An import that is read back was written so that it can be. -/
theorem survives_of_parse {url media : Text} (hmedia : Text.IsCollapsed media)
    (h : parse (compact (.importUrl url media)) = .ok [.importUrl url media]) :
    Survives false url media := by
  obtain ⟨segment, hgathered, hpieces, hnode⟩ := exists_of_reads_import (reads_of_parse h)
  have hgap : Text.blank [] = true := rfl
  -- The same segment is read in two ways, so what is
  -- taken as target and media is what was printed.
  have hread := ofSegment_renderImport url hmedia.toHasEnds hgap
  rw [List.nil_append, hnode] at hread
  obtain ⟨n, hn, heq⟩ := exists_of_map_ok hread.symm
  cases heq
  obtain ⟨huncut, heq⟩ := exists_of_parseImport_quote (trim_target url hmedia.toHasEnds) hn
  obtain ⟨hurl, hrest⟩ := Node.importUrl.inj heq
  have hbody : Literal.StringBody apostrophe url := by
    refine stringBody_of_take hmedia (c := ';') ?_ hurl.symm hrest.symm
    have hlast := congrArg List.getLast? hpieces
    rw [pieces_renderImport, List.getLast?_concat,
      List.getLast?_append_of_ne_nil _ (pieces_ne_nil (by simp [Text.quoted]))] at hlast
    rw [List.append_assoc]
    exact hlast
  have hbare : unquote url = url := by
    rw [hbody.takeString_eq rfl] at hurl
    rw [← Text.unquote_quoted]
    exact hurl.symm
  obtain ⟨hclosed, hpassed⟩ := closed_of_gathered hbody hmedia hgathered hpieces
  exact ⟨hbody, hbare, huncut, hclosed, hpassed⟩

/-! ### Imports of a stylesheet -/

/-- The media that are read from a segment are collapsed. -/
theorem isCollapsed_of_ofSegment {segment url media : Text} {node : Option Node}
    (h : ofSegment segment = .ok node) (hmem : .importUrl url media ∈ descendants node.toList) :
    Text.IsCollapsed media := by
  cases taken_of_ofSegment h with
  | blank hnil => cases hmem
  | importUrl hkeyword hn =>
      obtain ⟨url', media', rfl, hmedia⟩ := exists_of_parseImport hn
      obtain ⟨rfl, rfl⟩ : url = url' ∧ media = media' := by
        simpa [descendants, withDescendants] using hmem
      exact hmedia
  | atStatement himport hne hat => simp [descendants, withDescendants] at hmem
  | statement himport hne hat hsplit => simp [descendants, withDescendants] at hmem
  | declaration hat hsplit => simp [descendants, withDescendants] at hmem

/-- The parser collapses the media of every import. -/
theorem Reads.isCollapsed_media {ps : List Piece} {nodes : List Node} (h : Reads ps nodes)
    {url media : Text} (hmem : .importUrl url media ∈ descendants nodes) :
    Text.IsCollapsed media := by
  induction h with
  | last hsegment hnode => exact isCollapsed_of_ofSegment hnode hmem
  | comment hgap t hrest ih => exact ih (by simpa [descendants, withDescendants] using hmem)
  | semicolon hsegment hnode hrest ih =>
      rw [descendants_append, List.mem_append] at hmem
      exact hmem.elim (isCollapsed_of_ofSegment hnode) ih
  | block hsegment hbraces hinside hrest ihInside ihRest =>
      rw [descendants, withDescendants, List.cons_append, List.mem_cons, List.mem_append] at hmem
      rcases hmem with heq | hmem | hmem
      · cases heq
      · exact ihInside hmem
      · exact ihRest hmem

/-- An import of a stylesheet, printed in any of the three ways, is read
back exactly if it can be written between apostrophes. Where it is
compressed, its media are tightened at the commas. -/
theorem parse_printed_import_iff {text url media : Text} {nodes : List Node}
    (hparse : parse text = .ok nodes) (hmem : .importUrl url media ∈ descendants nodes) :
    (parse (compact (.importUrl url media)) = .ok [.importUrl url media]
        ∧ parse (pretty [.importUrl url media]) = .ok [.importUrl url media]
        ∧ ∀ options, ∃ media', Tightened [','] media media'
          ∧ parse (compressed options [.importUrl url media]) = .ok [.importUrl url media'])
      ↔ Survives false url media := by
  have hmedia := (reads_of_parse hparse).isCollapsed_media hmem
  constructor
  · rintro ⟨hcompact, -, -⟩
    exact survives_of_parse hmedia hcompact
  · intro h
    exact ⟨parse_compact_import h hmedia, parse_pretty_import h hmedia, fun options =>
      ⟨_, tightened [','] h.closed, parse_compressed_import h hmedia options⟩⟩

/-- The target and the media of an import. -/
def target? : Node → Option (Text × Text)
  | importUrl url media => some (url, media)
  | _ => none

/-- A node with a target is an import. -/
theorem eq_of_target? {n : Node} {url media : Text} (h : n.target? = some (url, media)) :
    n = .importUrl url media := by
  cases n with
  | importUrl url' media' =>
      cases h
      rfl
  | comment t => cases h
  | declaration name value => cases h
  | statement t => cases h
  | rule header children => cases h

/-- Comparing targets in place of nodes, which have no decidable equality. -/
theorem parse_eq_of_target? {t url media : Text}
    (h : (parse t).map (·.map target?) = .ok [some (url, media)]) :
    parse t = .ok [.importUrl url media] := by
  obtain ⟨nodes, hparse, htargets⟩ := exists_of_map_ok h
  obtain ⟨n, rest, rfl, hn, hrest⟩ := List.map_eq_cons_iff.mp htargets.symm
  rw [hparse, eq_of_target? hn, List.map_eq_nil_iff.mp hrest]

/-- A target with an escaped character and a blank, two levels deep, and
media with a comma. -/
theorem parse_printed_import_nested :
    ∃ nodes,
      parse "@media x\x7b@layer y\x7b@IMPORT url( \"a\\62 c\" ) screen , tv;\x7d\x7d".toList = .ok nodes
      ∧ .importUrl "a\\62 c".toList "screen , tv".toList ∈ descendants nodes
      ∧ parse (compact (.importUrl "a\\62 c".toList "screen , tv".toList))
        = .ok [.importUrl "a\\62 c".toList "screen , tv".toList] := by
  have htargets : (parse
      "@media x\x7b@layer y\x7b@IMPORT url( \"a\\62 c\" ) screen , tv;\x7d\x7d".toList).map
        (fun nodes => (descendants nodes).filterMap target?)
      = .ok [("a\\62 c".toList, "screen , tv".toList)] := by
    decide +kernel
  obtain ⟨nodes, hparse, hnodes⟩ := exists_of_map_ok htargets
  obtain ⟨n, hmem, hn⟩ := List.mem_filterMap.mp (hnodes ▸ List.mem_singleton_self _)
  rw [eq_of_target? hn] at hmem
  exact ⟨nodes, hparse, hmem,
    ((parse_printed_import_iff hparse hmem).mpr (by decide +kernel)).1⟩

/-- A target with an apostrophe ends there when it is printed. One whose
fourth byte is inside a character cannot be read at all. -/
theorem parse_printed_import_lost :
    (parse "@import \"a'b.css\";".toList = .ok [.importUrl "a'b.css".toList []]
        ∧ parse (compact (.importUrl "a'b.css".toList []))
          = .ok [.importUrl "a".toList "b.css';".toList])
      ∧ parse "@import url(ab\u00e9);".toList = .ok [.importUrl "ab\u00e9".toList []]
        ∧ parse (compact (.importUrl "ab\u00e9".toList [])) = .error .broken := by
  refine ⟨⟨parse_eq_of_target? (by decide +kernel), parse_eq_of_target? (by decide +kernel)⟩,
    parse_eq_of_target? (by decide +kernel), ?_⟩
  have hbroken : (parse (compact (.importUrl "ab\u00e9".toList []))).map List.length
      = .error .broken := by
    decide +kernel
  cases hparse : parse (compact (.importUrl "ab\u00e9".toList [])) with
  | error e =>
      rw [hparse] at hbroken
      obtain rfl : e = .broken := Except.error.inj hbroken
      rfl
  | ok nodes =>
      rw [hparse] at hbroken
      cases hbroken

end Node

end Stylesheet
