import Mathlib.Order.Bounds.Defs
import Stylesheet.Proofs.Derivation
import Stylesheet.Proofs.Offsets
import Stylesheet.Proofs.Unquoted

/-!
# Matching delimiters are found

`findClose` reads the text from the opening delimiter on, with a counter that
never goes below zero, and knows nothing of what stands before it. What it
should find is said of the whole text: the first position behind the opening
delimiter up to which as many delimiters close as open, where those inside the
literals of the whole text do not count (`Matches`). `findClose_isLeast` says
that it finds just that, and that the error is about the opening delimiter if
there is no such position.

The literals agree because the opening delimiter is outside of them: there
the pieces of the text can be divided, and the pieces behind are those of the
text behind (`IsRow.behind`). The counter agrees with the two counts as long as
it is not zero (`depth_count_cons`), and it is zero at the end only.
-/

set_option autoImplicit false

namespace Stylesheet

/-- The delimiter at one position closes the one at another: it lies behind
it, and from the one to the other, both included, as many delimiters open as
close outside literals. -/
structure Matches (t : Text) (d : Delimiter) (start stop : Nat) : Prop where
  lt : start < stop
  closes : StandsOutside t d.closing stop
  balanced : ((Finset.Icc start stop).filter (StandsOutside t d.opening)).card
    = ((Finset.Icc start stop).filter (StandsOutside t d.closing)).card

namespace Delimiter

variable {d : Delimiter} {depth : Nat}

/-- It does not get past a delimiter at which the counts agree. -/
theorem exists_closePieces? {front : List Piece}
    (h : depth + front.count (.plain d.opening) = front.count (.plain d.closing))
    (back : List Piece) :
    ∃ inside rest, d.closePieces? (depth + 1) (front ++ .plain d.closing :: back)
        = some (inside, rest)
      ∧ inside <+: front := by
  induction front generalizing depth with
  | nil =>
      obtain rfl : depth = 0 := h
      exact ⟨[], back, by rw [List.nil_append, closePieces?, if_pos ⟨rfl, Nat.le_refl 1⟩],
        List.nil_prefix⟩
  | cons p front ih =>
      by_cases hend : p = .plain d.closing ∧ depth = 0
      · obtain ⟨rfl, rfl⟩ := hend
        exact ⟨[], _, by rw [List.cons_append, closePieces?, if_pos ⟨rfl, Nat.le_refl 1⟩],
          List.nil_prefix⟩
      · obtain ⟨inside, rest, hfound, hinside⟩ := ih ((depth_count_cons hend front).mp h)
        refine ⟨p :: inside, rest, ?_, (List.prefix_cons_inj p).mpr hinside⟩
        rw [List.cons_append, closePieces?_past hend, hfound]
        rfl

end Delimiter

/-! ### Positions -/

section

variable {t : Text} {d : Delimiter} {before after : List Piece}

/-- Both delimiters count, so the counts agree if those between them do. -/
theorem card_eq_iff {inside rest : List Piece}
    (h : pieces t = before ++ .plain d.opening :: (inside ++ .plain d.closing :: rest)) :
    let start := Text.size (textOf before)
    let stop := start + (1 + Text.size (textOf inside))
    ((Finset.Icc start stop).filter (StandsOutside t d.opening)).card
        = ((Finset.Icc start stop).filter (StandsOutside t d.closing)).card
      ↔ inside.count (.plain d.opening) = inside.count (.plain d.closing) := by
  intro start stop
  have hpieces : pieces t = before ++ ((.plain d.opening :: (inside ++ [.plain d.closing])) ++ rest) := by
    simp [h]
  -- The interval goes from the opening delimiter to the closing one, both included, and each
  -- has one byte.
  have hsize : stop + 1
      = start + Text.size (textOf (.plain d.opening :: (inside ++ [.plain d.closing]))) := by
    simp only [textOf_cons, textOf_append, textOf_nil, Piece.text, Text.size_append, Text.size_cons,
      Text.size_nil, d.size_opening, d.size_closing]
    omega
  have hinterval : Finset.Icc start stop = Finset.Ico start (stop + 1) := by
    ext offset
    simp only [Finset.mem_Icc, Finset.mem_Ico]
    omega
  rw [hinterval, hsize, card_standsOutside hpieces, card_standsOutside hpieces]
  have hne := d.opening_ne_closing
  simp only [List.count_cons, List.count_append, List.count_nil, beq_iff_eq, Piece.plain.injEq, hne,
    hne.symm, if_true, if_false]
  omega

/-- Whether two delimiters match is decided by the pieces between them. -/
theorem matches_iff (h : pieces t = before ++ .plain d.opening :: after) {stop : Nat} :
    Matches t d (Text.size (textOf before)) stop
      ↔ ∃ inside rest, after = inside ++ .plain d.closing :: rest
        ∧ stop = Text.size (textOf before) + (1 + Text.size (textOf inside))
        ∧ inside.count (.plain d.opening) = inside.count (.plain d.closing) := by
  constructor
  · intro hmatch
    have hstop := mem_positions_pieces.mpr hmatch.closes
    have hlt := hmatch.lt
    rw [h, positions_append, Nat.zero_add, List.mem_append, mem_positions_cons] at hstop
    -- The closing delimiter is not among the pieces before, nor is it the opening one.
    rcases hstop with hbefore | ⟨-, hhere⟩ | hafter
    · have hbounds := bounds_of_mem_positions hbefore
      omega
    · omega
    · obtain ⟨inside, rest, rfl, rfl⟩ := mem_positions.mp hafter
      have hsize : Text.size (Piece.plain d.opening).text = 1 := d.size_opening
      rw [hsize, Nat.add_assoc] at hmatch ⊢
      exact ⟨inside, rest, rfl, rfl, (card_eq_iff h).mp hmatch.balanced⟩
  · rintro ⟨inside, rest, rfl, rfl, hcount⟩
    refine ⟨by omega, mem_positions_pieces.mp (mem_positions.mpr ?_), (card_eq_iff h).mpr hcount⟩
    refine ⟨before ++ .plain d.opening :: inside, rest, by simp [h], ?_⟩
    simp only [textOf_append, textOf_cons, Piece.text, Text.size_append, Text.size_cons,
      Text.size_nil, d.size_opening]
    omega

/-- From an opening delimiter outside literals the search goes over the
pieces behind it. -/
theorem findClose_eq (h : pieces t = before ++ .plain d.opening :: after) :
    findClose t (Text.size (textOf before)) d
      = match d.closePieces? 1 after with
        | some (inside, _) =>
          .ok (Text.size (textOf before) + (1 + Text.size (textOf inside)))
        | none =>
          .error (.unclosed d.opening (Text.size (textOf before))
            (Text.newlines (textOf before) + 1)) := by
  have htext : t = textOf before ++ textOf (.plain d.opening :: after) := by
    rw [← textOf_append, ← h, text_pieces]
  -- From the delimiter on the text is read as the same pieces.
  have hrow : pieces (textOf (.plain d.opening :: after)) = .plain d.opening :: after := by
    have hrow := isRow_pieces t
    rw [h] at hrow
    exact hrow.behind
  have hcut : Text.splitAtByte (Text.size (textOf before)) t
      = (textOf before, textOf (.plain d.opening :: after)) := by
    rw [htext, Text.splitAtByte_size]
  have hopen : d.closePieces? 0 (.plain d.opening :: after)
      = (d.closePieces? 1 after).map fun found => (.plain d.opening :: found.1, found.2) := by
    rw [closePieces?_cons (by simp [d.opening_ne_closing]), if_pos rfl]
  rw [findClose, hcut, Text.lineOf, hcut]
  simp only [Delimiter.close?, hrow, hopen]
  cases d.closePieces? 1 after with
  | none => rfl
  | some found => simp [Piece.text, d.size_opening]

end

/-- A character stands before a position as often as it is in the text
there. -/
theorem card_charAt? (front back : Text) (c : Char) :
    ((Finset.range (Text.size front)).filter fun i => (front ++ back).charAt? i = some c).card
      = front.count c := by
  -- Literals do not matter here, so each character is taken for a piece of its own.
  have hset : (Finset.range (Text.size front)).filter
      (fun i => (front ++ back).charAt? i = some c)
      = (positions c 0 (front.map .plain)).toFinset := by
    ext i
    have hmem : 0 + i ∈ positions c 0 (front.map .plain) ↔ front.charAt? i = some c := by
      rw [mem_positions_iff, spansFrom_map_plain, textOf_map_plain]
      simp
    rw [Finset.mem_filter, Finset.mem_range, List.mem_toFinset, ← Nat.zero_add i, hmem, Nat.zero_add]
    constructor
    · rintro ⟨hlt, hchar⟩
      rwa [Text.charAt?_append_of_lt hlt] at hchar
    · intro hchar
      have hlt := Text.lt_size_of_charAt? hchar
      exact ⟨hlt, by rwa [Text.charAt?_append_of_lt hlt]⟩
  have hinj : Function.Injective Piece.plain := fun _ _ => Piece.plain.inj
  rw [hset, List.toFinset_card_of_nodup (nodup_positions ..), length_positions,
    List.count_map_of_injective front _ hinj]

/-- From an opening delimiter outside literals, `findClose` finds the first
position that matches it. If there is none, the error gives the position of the
opening delimiter, and its line: one more than there are line feeds before it. -/
theorem findClose_isLeast (t : Text) (d : Delimiter) (start : Nat)
    (hopen : StandsOutside t d.opening start) :
    (∀ stop, findClose t start d = .ok stop ↔ IsLeast {i | Matches t d start i} stop)
    ∧ ((¬ ∃ stop, Matches t d start stop) → findClose t start d
        = .error (.unclosed d.opening start
            (1 + ((Finset.range start).filter fun i => t.charAt? i = some '\n').card))) := by
  obtain ⟨before, after, hpieces, hstart⟩ := mem_positions.mp (mem_positions_pieces.mpr hopen)
  rw [Nat.zero_add] at hstart
  subst hstart
  have hfind := findClose_eq hpieces
  cases hclose : d.closePieces? 1 after with
  | none =>
      rw [hclose] at hfind
      -- A position that matches would be one at which the search ends.
      have hnone : ¬ ∃ stop, Matches t d (Text.size (textOf before)) stop := by
        rintro ⟨stop, hmatch⟩
        obtain ⟨inside, rest, rfl, -, hcount⟩ := (matches_iff hpieces).mp hmatch
        obtain ⟨found, rest', hfound, -⟩ :=
          Delimiter.exists_closePieces? ((Nat.zero_add _).trans hcount) rest
        rw [hclose] at hfound
        cases hfound
      refine ⟨fun stop => ⟨fun hok => ?_, fun hleast => absurd ⟨stop, hleast.1⟩ hnone⟩, fun _ => ?_⟩
      · rw [hfind] at hok
        cases hok
      · have htext : t = textOf before ++ textOf (.plain d.opening :: after) := by
          rw [← textOf_append, ← hpieces, text_pieces]
        have hlines := card_charAt? (textOf before) (textOf (.plain d.opening :: after)) '\n'
        rw [← htext] at hlines
        rw [hfind, hlines, Nat.add_comm]
        rfl
  | some found =>
      obtain ⟨inside, rest⟩ := found
      rw [hclose] at hfind
      have hafter := Delimiter.closePieces?_eq hclose
      have hcount : 0 + inside.count (.plain d.opening) = inside.count (.plain d.closing) :=
        Delimiter.count_of_closePieces? hclose
      have hleast : IsLeast {i | Matches t d (Text.size (textOf before)) i}
          (Text.size (textOf before) + (1 + Text.size (textOf inside))) := by
        refine ⟨(matches_iff hpieces).mpr
          ⟨inside, rest, hafter, rfl, (Nat.zero_add _).symm.trans hcount⟩, ?_⟩
        intro stop hmatch
        obtain ⟨front, back, hsplit, rfl, hcount'⟩ := (matches_iff hpieces).mp hmatch
        obtain ⟨inside', rest', hfound, hfront⟩ :=
          Delimiter.exists_closePieces? ((Nat.zero_add _).trans hcount') back
        rw [← hsplit, hclose] at hfound
        cases hfound
        -- The search stopped at or before this position.
        obtain ⟨more, rfl⟩ := hfront
        simp only [textOf_append, Text.size_append]
        omega
      rw [hfind]
      refine ⟨fun stop => ⟨fun hok => ?_, fun hleast' => ?_⟩, fun hnone => ?_⟩
      · cases hok
        exact hleast
      · exact congrArg Except.ok (hleast.unique hleast')
      · exact absurd ⟨_, hleast.1⟩ hnone

/-- A block behind a wide character, with braces in a string, in a comment and
behind a string that ends with its line, and then a brace that nothing
closes. -/
def crowded : Text :=
  "é\n\x7ba:\"\x7d\\\"\";/* \x7d */b\x7bc\x7d'd\n\x7de\x7b".toList

/-- The first brace has its partner, and the last one none. -/
theorem findClose_crowded :
    StandsOutside crowded '{' 3 ∧ IsLeast {i | Matches crowded .brace 3 i} 26
    ∧ StandsOutside crowded '{' 28 ∧ (¬ ∃ stop, Matches crowded .brace 28 stop)
    ∧ 1 + ((Finset.range 28).filter fun i => crowded.charAt? i = some '\n').card = 3
    ∧ findClose crowded 28 .brace = .error (.unclosed '{' 28 3) := by
  have hfirst : StandsOutside crowded '{' 3 := by decide +kernel
  have hlast : StandsOutside crowded '{' 28 := by decide +kernel
  have hlines : 1 + ((Finset.range 28).filter fun i => crowded.charAt? i = some '\n').card = 3 := by
    decide +kernel
  -- Nothing begins behind the last brace.
  have hnone : ¬ ∃ stop, Matches crowded .brace 28 stop := by
    rintro ⟨stop, hlt, hcloses, -⟩
    have hsize : Text.size crowded = 29 := by decide +kernel
    have hend := Text.lt_size_of_charAt? hcloses.1
    omega
  have herror := (findClose_isLeast crowded .brace 28 hlast).2 hnone
  rw [hlines] at herror
  exact ⟨hfirst, ((findClose_isLeast crowded .brace 3 hfirst).1 26).mp (by decide +kernel), hlast,
    hnone, hlines, herror⟩

end Stylesheet
