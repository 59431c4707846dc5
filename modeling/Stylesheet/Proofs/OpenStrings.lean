import Stylesheet.Proofs.Quotes
import Stylesheet.Proofs.Selectors
import Stylesheet.Proofs.Unquoted

/-!
# The string that is open at the end of a text

A text may end in a string. `openQuote` is the quote of that string: of the first part
of a text with closed strings it says whether the cut goes through a string, and
nothing else can be open there (`StringsClosed.front_iff`).

A part that begins in a string is read again without what stood in front of it. If
nothing but quotes matters in it (`Unescaped`), the strings that are found then are
those between the strings of the whole: its pieces are a row of strings and other
characters (`QuoteRow`), and going over the quotes with one of them open or with none
(`quoteBehind`) takes the same steps. `openQuote_append_iff` says when the part has no
open string: when it ends in a string of the quote in which it began.
-/

set_option autoImplicit false

namespace Stylesheet

/-! ### The string that is open at the end of a text -/

/-- The quote of a string without its closing quote. -/
def Piece.openQuote : Piece → Option Char
  | .string (q :: inside) => if (Piece.string (q :: inside)).closed then none else some q
  | _ => none

/-- The quote of the string that is open at the end of a text. -/
def openQuote (t : Text) : Option Char := (pieces t).getLast?.bind Piece.openQuote

/-- No string is open in an empty text. -/
theorem openQuote_nil : openQuote [] = none := by
  rw [openQuote, pieces]
  rfl

/-- The last piece tells. -/
theorem openQuote_of_pieces {t : Text} (front : List Piece) {p : Piece}
    (h : pieces t = front ++ [p]) : openQuote t = p.openQuote := by
  rw [openQuote, h, List.getLast?_concat]
  rfl

/-- Pieces in front do not count if the last of them is not open. -/
theorem openQuote_of_behind {t r : Text} (front : List Piece) {p : Piece}
    (h : pieces t = front ++ p :: pieces r) (hp : p.openQuote = none) :
    openQuote t = openQuote r := by
  by_cases hr : r = []
  · have hlast : pieces t = front ++ [p] := by
      rw [h, hr, pieces]
    rw [openQuote_of_pieces _ hlast, hp, hr, openQuote_nil]
  · rw [openQuote, h, List.getLast?_append_of_ne_nil _ (List.cons_ne_nil _ _),
      List.getLast?_cons_of_ne_nil (pieces_ne_nil hr)]
    rfl

/-- If a string is open, it is the last piece. -/
theorem exists_of_openQuote {t : Text} {q : Char} (h : openQuote t = some q) :
    ∃ front inside, pieces t = front ++ [.string (q :: inside)]
      ∧ (Piece.string (q :: inside)).closed = false := by
  rw [openQuote, Option.bind_eq_some_iff] at h
  obtain ⟨p, hlast, hopen⟩ := h
  obtain ⟨front, hfront⟩ := List.getLast?_eq_some_iff.mp hlast
  unfold Piece.openQuote at hopen
  split at hopen
  · split at hopen
    · cases hopen
    · rename_i q' inside hclosed
      cases hopen
      exact ⟨front, inside, hfront, Bool.eq_false_iff.mpr hclosed⟩
  · cases hopen

/-- A closed piece is not open. -/
theorem Piece.openQuote_of_closed {p : Piece} (h : p.closed = true) : p.openQuote = none := by
  unfold Piece.openQuote
  split
  · exact if_pos h
  · rfl

/-- A string that is not closed is open. -/
theorem Piece.openQuote_of_open {q : Char} {inside : Text}
    (h : (Piece.string (q :: inside)).closed = false) :
    (Piece.string (q :: inside)).openQuote = some q := by
  rw [Piece.openQuote, h]
  rfl

/-- For a string of a text both are the same. It is asked to come from a text
because a string without any character would be neither. -/
theorem Piece.openQuote_eq_none {t s : Text} (hs : .string s ∈ pieces t) :
    (Piece.string s).openQuote = none ↔ (Piece.string s).closed = true := by
  obtain ⟨q, inside, -, rfl⟩ := exists_quote hs
  rw [Piece.openQuote]
  split <;> simp_all

/-- Of the strings in the first part of a text, only the last one can have lost its
closing quote. -/
theorem StringsClosed.front_iff {a b : Text} (h : StringsClosed (a ++ b)) :
    StringsClosed a ↔ openQuote a = none := by
  constructor
  · -- An open string at the end is one of the strings.
    intro ha
    by_contra hopen
    obtain ⟨q, hq⟩ := Option.ne_none_iff_exists'.mp hopen
    obtain ⟨front, inside, hpieces, hclosed⟩ := exists_of_openQuote hq
    have hs := ha (q :: inside) (mem_strings.mpr (by simp [hpieces]))
    rw [hclosed] at hs
    cases hs
  · intro hopen s hs
    rw [mem_strings] at hs
    rcases pieces_append_cases a b with hpieces | ⟨front, p, p', back, hcut⟩
    · exact h s (mem_strings.mpr (by rw [hpieces]; exact List.mem_append_left _ hs))
    · rw [hcut.first, List.mem_append, List.mem_singleton] at hs
      rcases hs with hs | rfl
      · exact h s (mem_strings.mpr (by rw [hcut.whole]; exact List.mem_append_left _ hs))
      · rw [openQuote_of_pieces _ hcut.first] at hopen
        exact (Piece.openQuote_eq_none (by rw [hcut.first]; simp)).mp hopen

/-! ### Counting quotes -/

/-- The open quote behind one more character, if nothing but quotes matters. -/
def quoteStep (openedBy : Option Char) (c : Char) : Option Char :=
  if isQuote c then openedBy.elim (some c) fun q => if c = q then none else some q
  else openedBy

/-- The open quote behind a text. -/
def quoteBehind (openedBy : Option Char) (t : Text) : Option Char := t.foldl quoteStep openedBy

/-- Quotes are followed from left to right. -/
theorem quoteBehind_append (openedBy : Option Char) (s t : Text) :
    quoteBehind openedBy (s ++ t) = quoteBehind (quoteBehind openedBy s) t :=
  List.foldl_append

/-- One character and then the others. -/
theorem quoteBehind_cons (openedBy : Option Char) (c : Char) (t : Text) :
    quoteBehind openedBy (c :: t) = quoteBehind (quoteStep openedBy c) t :=
  List.foldl_cons ..

/-- Other characters do not matter. -/
theorem quoteStep_of_not {c : Char} (hc : isQuote c = false) (openedBy : Option Char) :
    quoteStep openedBy c = openedBy := by
  simp [quoteStep, hc]

/-- Outside of strings, a quote opens one. -/
theorem quoteStep_none {q : Char} (hq : isQuote q = true) : quoteStep none q = some q := by
  simp [quoteStep, hq]

/-- The same quote closes it. -/
theorem quoteStep_self {q : Char} (hq : isQuote q = true) : quoteStep (some q) q = none := by
  simp [quoteStep, hq]

/-- In a string, everything but its quote is passed over. -/
theorem quoteStep_of_ne {q c : Char} (hc : c ≠ q) : quoteStep (some q) c = some q := by
  simp [quoteStep, hc]

/-- Two equal quotes inside a string leave it open: they are passed over, or
close it and open another one. -/
theorem quoteStep_twice {c : Char} (hc : isQuote c = true) (q : Char) :
    quoteStep (quoteStep (some q) c) c = some q := by
  by_cases hcq : c = q
  · rw [hcq] at hc ⊢
    rw [quoteStep_self hc, quoteStep_none hc]
  · rw [quoteStep_of_ne hcq, quoteStep_of_ne hcq]

/-- A string stays open over a text without its quote. -/
theorem quoteBehind_of_not_mem {q : Char} {t : Text} (h : q ∉ t) :
    quoteBehind (some q) t = some q := by
  induction t with
  | nil => rfl
  | cons c t ih =>
      rw [List.mem_cons, not_or] at h
      rw [quoteBehind_cons, quoteStep_of_ne (Ne.symm h.1), ih h.2]

/-- A text without quotes changes nothing. -/
theorem quoteBehind_of_count {t : Text} (h : t.countP isQuote = 0) (openedBy : Option Char) :
    quoteBehind openedBy t = openedBy := by
  induction t with
  | nil => rfl
  | cons c t ih =>
      rw [List.countP_eq_zero, List.forall_mem_cons] at h
      rw [quoteBehind_cons, quoteStep_of_not (by simpa using h.1), ih (List.countP_eq_zero.mpr h.2)]

/-- Nothing but quotes matters in this text: it has no backslash, no line feed and
no mark of a comment. -/
structure Unescaped (t : Text) : Prop where
  free : Text.FreeOf ['\\', '\n'] t
  comments : Text.contains ['/', '*'] t = false

instance (t : Text) : Decidable (Unescaped t) :=
  decidable_of_iff (Text.FreeOf ['\\', '\n'] t ∧ Text.contains ['/', '*'] t = false)
    ⟨fun h => ⟨h.1, h.2⟩, fun h => ⟨h.free, h.comments⟩⟩

/-- A part of such a text is one. -/
theorem Unescaped.of_append {s t : Text} (h : Unescaped (s ++ t)) : Unescaped t := by
  induction s with
  | nil => exact h
  | cons c s ih =>
      have hcomments := h.comments
      rw [List.cons_append, Text.contains, Bool.or_eq_false_iff] at hcomments
      exact ih ⟨fun d hd => h.free d (List.mem_cons_of_mem c hd), hcomments.2⟩

/-- Without backslashes, the quote cannot stand in the string. -/
theorem Literal.StringBody.not_mem {q : Char} {body : Text} (h : StringBody q body)
    (hback : '\\' ∉ body) : q ∉ body := by
  induction h with
  | nil => exact List.not_mem_nil
  | escaped d hbody ih => exact absurd List.mem_cons_self hback
  | char hc hline hquote hbody ih =>
      rw [List.mem_cons, not_or] at hback ⊢
      exact ⟨Ne.symm hquote, ih hback.2⟩

/-- A text with its pieces, if nothing but quotes matters: characters outside
strings, closed strings, and at the end perhaps a string that is not closed. No
string has its quote in it. -/
inductive QuoteRow : Text → Prop where
  | nil : QuoteRow []
  | plain {c : Char} {r : Text} (hc : isQuote c = false)
      (hpieces : pieces (c :: r) = .plain c :: pieces r) (hr : QuoteRow r) : QuoteRow (c :: r)
  | opened {q : Char} {body : Text} (hq : isQuote q = true) (hbody : q ∉ body)
      (hpieces : pieces (q :: body) = [.string (q :: body)])
      (hopen : (Piece.string (q :: body)).closed = false) : QuoteRow (q :: body)
  | closed {q : Char} {body r : Text} (hq : isQuote q = true) (hbody : q ∉ body)
      (hpieces : pieces (q :: (body ++ q :: r)) = .string (q :: (body ++ [q])) :: pieces r)
      (hclosed : (Piece.string (q :: (body ++ [q]))).closed = true) (hr : QuoteRow r) :
      QuoteRow (q :: (body ++ q :: r))

/-- Such a text is a row of characters and strings. -/
theorem Unescaped.quoteRow {t : Text} (h : Unescaped t) : QuoteRow t := by
  -- The induction is on the length, since a closed string is gone over in one step.
  induction hn : t.length using Nat.strongRecOn generalizing t with
  | ind n ih =>
      cases t with
      | nil => exact .nil
      | cons c r =>
          cases hc : isQuote c with
          | false =>
              have hr : Unescaped r := h.of_append (s := [c])
              refine .plain hc (pieces_of_plain (Literal.take?_eq_none.mpr ⟨hc, ?_⟩))
                (ih r.length (by simp [← hn]) hr rfl)
              -- A slash begins no comment here.
              rintro rfl hstar
              obtain ⟨r, rfl⟩ := List.head?_eq_some_iff.mp hstar
              have hcomments := h.comments
              simp [Text.contains] at hcomments
          | true =>
              have hback : '\\' ∉ r := fun hmem => h.free _ (List.mem_cons_of_mem c hmem) (by simp)
              have hline : '\n' ∉ r := fun hmem => h.free _ (List.mem_cons_of_mem c hmem) (by simp)
              rcases Literal.stringBody_cases c r with hr | ⟨body, rfl, -⟩
                | ⟨body, d, rest, rfl, hbody, rfl | rfl⟩
              · have htake := hr.takeString_append []
                rw [List.append_nil] at htake
                refine .opened hc (hr.not_mem hback) ?_ ?_
                · rw [pieces_of_take? (Literal.take?_quote hc r), htake]
                  simp [Literal.takeString, pieces]
                · rw [Bool.eq_false_iff]
                  exact fun hends => hr.not_mem hback
                    (List.mem_of_getLast? (Literal.getLast?_of_endsString hends))
              · simp at hback
              · have hmem : d ∉ body := hbody.not_mem fun hmem => hback (by simp [hmem])
                have hrest : Unescaped rest := by
                  have happend : Unescaped ((d :: (body ++ [d])) ++ rest) := by simpa using h
                  exact happend.of_append
                refine .closed hc hmem ?_ hbody.endsString_eq
                  (ih rest.length (by simp [← hn]; omega) hrest rfl)
                rw [pieces_of_take? (Literal.take?_quote hc _), hbody.takeString_eq hc]
              · simp at hline

/-- How many quotes a string has if there are none in it but its own. -/
def ownQuotes (s : Text) : Nat := if (Piece.string s).closed then 2 else 1

namespace QuoteRow

variable {t : Text}

/-- The open string is the one that counting quotes gives. -/
theorem openQuote_eq (h : QuoteRow t) : openQuote t = quoteBehind none t := by
  induction h with
  | nil => exact openQuote_nil
  | plain hc hpieces hr ih =>
      rw [openQuote_of_behind [] hpieces rfl, quoteBehind_cons, quoteStep_of_not hc, ih]
  | opened hq hbody hpieces hopen =>
      rw [openQuote_of_pieces [] hpieces, Piece.openQuote_of_open hopen, quoteBehind_cons,
        quoteStep_none hq, quoteBehind_of_not_mem hbody]
  | closed hq hbody hpieces hclosed hr ih =>
      rw [openQuote_of_behind [] hpieces (Piece.openQuote_of_closed hclosed), quoteBehind_cons,
        quoteStep_none hq, quoteBehind_append, quoteBehind_of_not_mem hbody, quoteBehind_cons,
        quoteStep_self hq, ih]

/-- Only the last string can be open. -/
theorem stringsClosed_iff (h : QuoteRow t) : StringsClosed t ↔ openQuote t = none := by
  induction h with
  | nil => exact iff_of_true (by decide +kernel) openQuote_nil
  | plain hc hpieces hr ih =>
      rw [openQuote_of_behind [] hpieces rfl, ← ih, StringsClosed, strings, hpieces,
        stringsOf_plain]
      rfl
  | opened hq hbody hpieces hopen =>
      rw [openQuote_of_pieces [] hpieces, Piece.openQuote_of_open hopen, StringsClosed, strings,
        hpieces, stringsOf_string]
      simp [hopen]
  | closed hq hbody hpieces hclosed hr ih =>
      rw [openQuote_of_behind [] hpieces (Piece.openQuote_of_closed hclosed), ← ih, StringsClosed,
        strings, hpieces, stringsOf_string, List.forall_mem_cons, and_iff_right hclosed]
      rfl

/-- Behind an open quote, strings and what is between them change places. The text
closes the quote exactly if it ends in a string of the same quote. -/
theorem quoteBehind_eq_none_iff (h : QuoteRow t) {q : Char}
    (hown : ∀ s ∈ strings t, s.countP isQuote = ownQuotes s) :
    quoteBehind (some q) t = none ↔ openQuote t = some q := by
  induction h with
  | nil =>
      rw [openQuote_nil]
      simp [quoteBehind]
  | plain hc hpieces hr ih =>
      rw [strings, hpieces, stringsOf_plain] at hown
      rw [openQuote_of_behind [] hpieces rfl, quoteBehind_cons, quoteStep_of_not hc, ih hown]
  | @opened q' body hq hbody hpieces hopen =>
      -- The string up to the end has its first quote and no other.
      have hcount := hown (q' :: body) (by rw [mem_strings, hpieces]; exact List.mem_cons_self)
      rw [ownQuotes, hopen, List.countP_cons_of_pos hq] at hcount
      have hnone : body.countP isQuote = 0 := by simpa using hcount
      rw [openQuote_of_pieces [] hpieces, Piece.openQuote_of_open hopen, quoteBehind_cons,
        quoteBehind_of_count hnone, Option.some.injEq]
      by_cases hqq : q' = q
      · rw [hqq] at hq ⊢
        simp [quoteStep_self hq]
      · simp [quoteStep_of_ne hqq, hqq]
  | @closed q' body r hq hbody hpieces hclosed hr ih =>
      -- The two quotes of a closed string cancel out.
      rw [strings, hpieces, stringsOf_string, List.forall_mem_cons, ownQuotes, hclosed,
        List.countP_cons_of_pos hq, List.countP_append, List.countP_singleton, hq] at hown
      have hnone : body.countP isQuote = 0 := by simpa using hown.1
      rw [openQuote_of_behind [] hpieces (Piece.openQuote_of_closed hclosed), quoteBehind_cons,
        quoteBehind_append, quoteBehind_of_count hnone, quoteBehind_cons, quoteStep_twice hq,
        ih hown.2]

end QuoteRow

/-! ### First parts -/

section

variable {v r : Text}

/-- The first part of a text has the strings of the text, but for the last one. -/
theorem StringsClosed.of_mem_front (h : StringsClosed (v ++ r)) {front back : List Piece} {s : Text}
    (hv : pieces v = front ++ .string s :: back) (hback : back ≠ []) :
    (Piece.string s).closed = true := by
  have hmem : .string s ∈ pieces (v ++ r) := by
    rcases pieces_append_cases v r with hpieces | ⟨front', p, p', back', hcut⟩
    · rw [hpieces, hv]
      simp
    · -- What was cut is the last piece, and the string stands in front of it.
      obtain ⟨back, last, rfl⟩ := List.eq_nil_or_concat' back |>.resolve_left hback
      have hfirst := hcut.first
      rw [hv, ← List.cons_append, ← List.append_assoc] at hfirst
      rw [hcut.whole, ← (List.append_inj' hfirst rfl).1]
      simp
  exact h s (mem_strings.mpr hmem)

/-- If the strings of a text have no quotes but their own, nor have those of its
first part. -/
theorem StringsClosed.ownQuotes_front (h : StringsClosed (v ++ r))
    (hown : ∀ s ∈ strings (v ++ r), s.countP isQuote = 2) :
    ∀ s ∈ strings v, s.countP isQuote = ownQuotes s := by
  -- A string of the first part is one of the whole text, or the beginning of one.
  have hwhole : ∀ s, .string s ∈ pieces (v ++ r) → s.countP isQuote = ownQuotes s := by
    intro s hs
    rw [← mem_strings] at hs
    rw [hown s hs, ownQuotes, h s hs]
    rfl
  intro s hs
  rw [mem_strings] at hs
  rcases pieces_append_cases v r with hpieces | ⟨front, p, p', back, hcut⟩
  · exact hwhole s (by rw [hpieces]; exact List.mem_append_left _ hs)
  · have hquote := exists_quote hs
    rw [hcut.first, List.mem_append, List.mem_singleton] at hs
    rcases hs with hs | rfl
    · exact hwhole s (by rw [hcut.whole]; exact List.mem_append_left _ hs)
    · -- Of the two quotes of the whole string, the cut one keeps the first.
      obtain ⟨q, inside, hq, rfl⟩ := hquote
      obtain ⟨more, hne, rfl, -⟩ := hcut.exists_string
      have hmem : .string (q :: inside ++ more) ∈ pieces (v ++ r) := by
        rw [hcut.whole]
        simp
      have htwo := hown _ (mem_strings.mpr hmem)
      obtain ⟨q', body, hq', hends, -⟩ :=
        isClosedString_of_mem hmem (h _ (mem_strings.mpr hmem))
      have hlast : more.getLast? = some q' := by
        rw [← List.getLast?_append_of_ne_nil _ hne, hends, ← List.cons_append, List.getLast?_concat]
      have hmore : 0 < more.countP isQuote :=
        List.countP_pos_iff.mpr ⟨q', List.mem_of_getLast? hlast, hq'⟩
      rw [List.countP_append, List.countP_cons_of_pos hq] at htwo
      rw [ownQuotes, hcut.closed_eq_false (by simp), List.countP_cons_of_pos hq]
      show inside.countP isQuote + 1 = 1
      omega

end

section

variable {a u more inside : Text} {q : Char} {front back : List Piece}

/-- A string that goes on to the end of a text has no more quotes. -/
theorem openQuote_of_goesOn (hown : ∀ s ∈ strings (a ++ u), s.countP isQuote = ownQuotes s)
    (hpieces : pieces (a ++ u) = front ++ [.string (q :: inside ++ u)])
    (hopen : (Piece.string (q :: inside ++ u)).closed = false) :
    u.countP isQuote = 0 ∧ openQuote (a ++ u) = some q := by
  have hmem : .string (q :: inside ++ u) ∈ pieces (a ++ u) := by
    rw [hpieces]
    simp
  obtain ⟨q', inside', hq, heq⟩ := exists_quote hmem
  obtain ⟨rfl, -⟩ := List.cons.inj heq
  constructor
  · have hcount := hown _ (mem_strings.mpr hmem)
    rw [ownQuotes, hopen, List.countP_append, List.countP_cons_of_pos hq] at hcount
    simp only [Bool.false_eq_true, if_false] at hcount
    omega
  · rw [openQuote_of_pieces _ hpieces]
    exact Piece.openQuote_of_open hopen

/-- A string that ends in the second part of a text has its closing quote there, and
the other strings are behind it. -/
theorem exists_of_closed (hown : ∀ s ∈ strings (a ++ u), s.countP isQuote = ownQuotes s)
    (hpieces : pieces (a ++ u) = front ++ .string (q :: inside ++ more) :: back)
    (hclosed : (Piece.string (q :: inside ++ more)).closed = true) (hne : more ≠ []) :
    ∃ m, more = m ++ [q] ∧ isQuote q = true ∧ m.countP isQuote = 0
      ∧ openQuote (a ++ u) = openQuote (textOf back)
      ∧ ∀ s ∈ strings (textOf back), s.countP isQuote = ownQuotes s := by
  have hmem : .string (q :: inside ++ more) ∈ pieces (a ++ u) := by
    rw [hpieces]
    simp
  -- The string ends with its quote, which is the last character of the part that is missing.
  obtain ⟨m, x, rfl⟩ := (List.eq_nil_or_concat' more).resolve_left hne
  obtain ⟨q', body, hq, hends, -⟩ := isClosedString_of_mem hmem hclosed
  obtain ⟨rfl, hends⟩ := List.cons.inj hends
  obtain rfl : x = q := by
    rw [List.append_eq, ← List.append_assoc] at hends
    exact (List.cons.inj (List.append_inj' hends rfl).2).1
  have hrow : pieces (textOf back) = back := by
    have hrow := isRow_pieces (a ++ u)
    rw [hpieces] at hrow
    exact hrow.behind.tail
  refine ⟨m, rfl, hq, ?_, ?_, ?_⟩
  · -- Its two quotes are the first character and the last one.
    have hcount := hown _ (mem_strings.mpr hmem)
    rw [ownQuotes, hclosed, List.countP_append, List.countP_cons_of_pos hq, List.countP_append,
      List.countP_singleton, hq] at hcount
    simp only [if_true] at hcount
    omega
  · exact openQuote_of_behind front (by rw [hpieces, hrow]) (Piece.openQuote_of_closed hclosed)
  · intro s hs
    apply hown
    rw [mem_strings, hrow] at hs
    rw [mem_strings, hpieces]
    simp [hs]

end

/-- Behind the beginning of a string: what follows has no open string exactly if it
ends in a string of the same quote. -/
theorem openQuote_append_iff {a u r : Text} {q : Char} (h : StringsClosed (a ++ u ++ r))
    (hown : ∀ s ∈ strings (a ++ u ++ r), s.countP isQuote = 2) (hu : Unescaped u)
    (ha : openQuote a = some q) : openQuote u = none ↔ openQuote (a ++ u) = some q := by
  have hfront := h.ownQuotes_front hown
  obtain ⟨front, inside, hpieces, hopen⟩ := exists_of_openQuote ha
  rcases pieces_append_cases a u with happend | ⟨front', p, p', back, hcut⟩
  · -- An open string is the last piece, so nothing follows.
    have hnil : u = [] := by
      by_contra hne
      rw [hpieces, List.append_assoc] at happend
      have hclosed := h.of_mem_front happend (pieces_ne_nil hne)
      rw [hopen] at hclosed
      cases hclosed
    rw [hnil, List.append_nil, openQuote_nil, ha]
    simp
  · have hfirst := hcut.first
    rw [hpieces] at hfirst
    obtain ⟨rfl, hp⟩ := List.append_inj' hfirst rfl
    cases hp
    obtain ⟨more, hne, rfl, hsplit⟩ := hcut.exists_string
    cases hclosed : (Piece.string (q :: inside ++ more)).closed with
    | false =>
        have hback : back = [] := by
          by_contra hne
          rw [h.of_mem_front hcut.whole hne] at hclosed
          cases hclosed
        subst hback
        obtain rfl : u = more := by simpa using hsplit
        obtain ⟨hnone, hends⟩ := openQuote_of_goesOn hfront hcut.whole hclosed
        rw [hends, hu.quoteRow.openQuote_eq, quoteBehind_of_count hnone]
        simp
    | true =>
        -- The quote that closed the string opens one, and the rest decides.
        obtain ⟨m, rfl, hq, hnone, hends, hrest⟩ := exists_of_closed hfront hcut.whole hclosed hne
        subst hsplit
        rw [hends, ← hu.of_append.quoteRow.quoteBehind_eq_none_iff hrest, hu.quoteRow.openQuote_eq,
          quoteBehind_append, quoteBehind_append, quoteBehind_of_count hnone, quoteBehind_cons,
          quoteStep_none hq]
        rfl

end Stylesheet
