import Stylesheet.Proofs.Reading

/-!
# Reading a segment character by character

Pieces say what a text is made of, and they are the wrong means to say that
a text still is what it was when blanks are dropped from it: a string in it
changes, and with it the piece. Here the same scan is told by characters. A
`Scan` is a place in a text: inside which kind of literal it is, and how
many brackets are open. `Scan.next` goes over one character, and fails
where a segment ends, and where a string is not closed on its line.

`endsAt_iff`: a scan gets to the end of a text, outside literals, just if
the literals of the text are closed and the parser goes over its pieces
without leaving the segment (`passed`). So what is shown for scans holds
for pieces. Scans follow one another along texts that do (`along_append`), and
one blank does to a scan what many do; this gives `EndsAt.trim` and
`EndsAt.collapse`.
-/

set_option autoImplicit false

namespace Stylesheet

/-! ### Scans -/

/-- A character that opens and closes strings. -/
abbrev Quote := { c : Char // isQuote c = true }

/-- In which part of a text a scan is. -/
inductive Mode where
  /-- Outside literals. -/
  | plain
  /-- Outside literals, behind a slash. -/
  | slash
  /-- In a string that its quote will close. -/
  | string (q : Quote)
  /-- In a string, behind a backslash. -/
  | escape (q : Quote)
  | comment
  /-- In a comment, behind a star. -/
  | star
  deriving DecidableEq

/-- Whether a scan is outside literals. -/
def Mode.outside : Mode → Bool
  | plain => true
  | slash => true
  | _ => false

/-- A place in a text. -/
structure Scan where
  mode : Mode
  depth : Nat
  deriving DecidableEq

namespace Scan

/-- Over one character outside literals. -/
def nextOutside (nested : Bool) (depth : Nat) (c : Char) : Option Scan :=
  if hq : isQuote c = true then some ⟨.string ⟨c, hq⟩, depth⟩
  else if c = '/' then some ⟨.slash, depth⟩
  else if endsSegment nested depth c then none
  else some ⟨.plain, Node.bracketDepth depth c⟩

/-- Over one character. There is no way over the end of the segment, nor
over the end of a line in a string. -/
def next (nested : Bool) (s : Scan) (c : Char) : Option Scan :=
  match s.mode with
  | .plain => nextOutside nested s.depth c
  | .slash => if c = '*' then some ⟨.comment, s.depth⟩ else nextOutside nested s.depth c
  | .string q =>
    if c = '\\' then some ⟨.escape q, s.depth⟩
    else if c = '\n' then none
    else if c = q.val then some ⟨.plain, s.depth⟩
    else some s
  | .escape q => some ⟨.string q, s.depth⟩
  | .comment => some ⟨if c = '*' then .star else .comment, s.depth⟩
  | .star => some ⟨if c = '/' then .plain else if c = '*' then .star else .comment, s.depth⟩

/-- Over a text. -/
def along (nested : Bool) (s : Scan) (t : Text) : Option Scan := t.foldlM (next nested) s

/-- Over one text and then another. -/
theorem along_append (nested : Bool) (s : Scan) (t u : Text) :
    along nested s (t ++ u) = (along nested s t).bind fun s' => along nested s' u :=
  List.foldlM_append

/-- Over one character and then the others. -/
theorem along_cons {nested : Bool} {s s' : Scan} {c : Char} {t : Text} :
    along nested s (c :: t) = some s'
      ↔ ∃ s₁, next nested s c = some s₁ ∧ along nested s₁ t = some s' := by
  rw [along, List.foldlM_cons]
  exact Option.bind_eq_some_iff

/-- From a scan, a text ends outside literals with some brackets open. -/
def EndsAt (nested : Bool) (s : Scan) (t : Text) (depth : Nat) : Prop :=
  ∃ mode, mode.outside = true ∧ along nested s t = some ⟨mode, depth⟩

namespace EndsAt

variable {nested : Bool} {s : Scan} {t u : Text} {depth : Nat}

/-- At the end the scan has to be outside literals. -/
theorem nil_iff : EndsAt nested s [] depth ↔ s.mode.outside = true ∧ s.depth = depth := by
  constructor
  · rintro ⟨mode, hmode, halong⟩
    cases halong
    exact ⟨hmode, rfl⟩
  · rintro ⟨hmode, rfl⟩
    exact ⟨s.mode, hmode, rfl⟩

/-- One character and then the others. -/
theorem cons_iff {c : Char} :
    EndsAt nested s (c :: t) depth ↔ ∃ s', next nested s c = some s' ∧ EndsAt nested s' t depth := by
  constructor
  · rintro ⟨mode, hmode, halong⟩
    obtain ⟨s', hnext, halong⟩ := along_cons.mp halong
    exact ⟨s', hnext, mode, hmode, halong⟩
  · rintro ⟨s', hnext, mode, hmode, halong⟩
    exact ⟨mode, hmode, along_cons.mpr ⟨s', hnext, halong⟩⟩

/-- One text and then another. -/
theorem append_iff :
    EndsAt nested s (t ++ u) depth ↔ ∃ s', along nested s t = some s' ∧ EndsAt nested s' u depth := by
  constructor
  · rintro ⟨mode, hmode, halong⟩
    rw [along_append] at halong
    obtain ⟨s', ht, hu⟩ := Option.bind_eq_some_iff.mp halong
    exact ⟨s', ht, mode, hmode, hu⟩
  · rintro ⟨s', ht, mode, hmode, hu⟩
    refine ⟨mode, hmode, ?_⟩
    rw [along_append, ht]
    exact hu

end EndsAt

/-! ### Scans and pieces -/

section

variable {nested : Bool} {depth depth' : Nat}

/-- A scan comes out of a string behind the quote that closes it. -/
theorem endsAt_string_iff {q : Char} (hq : isQuote q = true) (t : Text) :
    EndsAt nested ⟨.string ⟨q, hq⟩, depth⟩ t depth'
      ↔ Literal.endsString q (Literal.takeString q t).1 = true
        ∧ EndsAt nested ⟨.plain, depth⟩ (Literal.takeString q t).2 depth' := by
  have hback : q ≠ '\\' := Literal.ne_of_isQuote hq (by decide)
  -- The reader looks two characters ahead, so that a single one is a case of its own.
  fun_induction Literal.takeString q t with
  | case1 => simp [EndsAt.nil_iff, Literal.endsString, Mode.outside]
  | case2 c hc =>
      obtain rfl : c = '\n' := by simpa using hc
      simp [EndsAt.cons_iff, next, Literal.endsString]
  | case3 c hc =>
      have hn : c ≠ '\n' := by simpa using hc
      by_cases hcq : c = q
      · subst hcq
        simp [EndsAt.cons_iff, next, hback, hn, Literal.endsString]
      · by_cases hb : c = '\\'
        · simp [EndsAt.cons_iff, EndsAt.nil_iff, next, hb, Literal.endsString, Mode.outside,
            Ne.symm hback]
        · simp [EndsAt.cons_iff, EndsAt.nil_iff, next, hb, hn, hcq, Literal.endsString, Mode.outside]
  | case4 c d r hb inside rest heq ih =>
      obtain rfl : c = '\\' := by simpa using hb
      rw [heq] at ih
      simpa [EndsAt.cons_iff, next, Literal.endsString] using ih
  | case5 c d r hb hn =>
      obtain rfl : c = '\n' := by simpa using hn
      simp [EndsAt.cons_iff, next, Literal.endsString]
  | case6 c d r hb hn hcq =>
      obtain rfl : c = q := by simpa using hcq
      have hc : c ≠ '\n' := by simpa using hn
      rw [EndsAt.cons_iff]
      simp [next, hback, hc, Literal.endsString]
  | case7 c d r hb hn hcq inside rest heq ih =>
      rw [heq] at ih
      have hc : c ≠ '\\' ∧ c ≠ '\n' ∧ c ≠ q := by
        simp only [beq_iff_eq] at hb hn hcq
        exact ⟨hb, hn, hcq⟩
      have hends : Literal.endsString q (c :: inside) = Literal.endsString q inside := by
        cases inside with
        | nil => simp [Literal.endsString, hc.2.2]
        | cons e inside => simp [Literal.endsString, hc.1]
      rw [EndsAt.cons_iff]
      simpa [next, hc, hends] using ih

/-- Behind a star, a character that does not close the comment is the same
as anywhere in it. -/
theorem next_star {c : Char} (hc : c ≠ '/') :
    next nested ⟨.star, depth⟩ c = next nested ⟨.comment, depth⟩ c := by
  simp [next, hc]

/-- A scan comes out of a comment behind the mark that closes it. -/
theorem endsAt_comment_iff (t : Text) :
    EndsAt nested ⟨.comment, depth⟩ t depth'
      ↔ Literal.endsComment (Literal.takeComment t).1 = true
        ∧ EndsAt nested ⟨.plain, depth⟩ (Literal.takeComment t).2 depth' := by
  fun_induction Literal.takeComment t with
  | case1 => simp [EndsAt.nil_iff, Mode.outside, Literal.endsComment]
  | case2 c =>
      have hshort : Literal.endsComment [c] = false := by
        rw [← Bool.not_eq_true]
        intro h
        have hlength := (List.isSuffixOf_iff_suffix.mp h).length_le
        simp at hlength
      rw [hshort, EndsAt.cons_iff]
      simp only [next, Option.some.injEq, exists_eq_left', EndsAt.nil_iff]
      by_cases hc : c = '*' <;> simp [hc, Mode.outside]
  | case3 c d r hcd =>
      obtain ⟨rfl, rfl⟩ : c = '*' ∧ d = '/' := by simpa using hcd
      rw [EndsAt.cons_iff]
      simp [next, EndsAt.cons_iff, Literal.endsComment]
  | case4 c d r hcd inside rest heq ih =>
      rw [heq] at ih
      have hhead := Literal.head?_takeComment d r
      rw [heq] at hhead
      -- A star that no slash follows leaves the scan
      -- in the comment, though in another mode of it.
      have hstep : EndsAt nested ⟨.comment, depth⟩ (c :: d :: r) depth'
          ↔ EndsAt nested ⟨.comment, depth⟩ (d :: r) depth' := by
        rw [EndsAt.cons_iff]
        by_cases hc : c = '*'
        · have hd : d ≠ '/' := by
            rintro rfl
            simp [hc] at hcd
          simp only [next, hc, if_true, Option.some.injEq, exists_eq_left']
          rw [EndsAt.cons_iff, EndsAt.cons_iff, next_star hd]
        · simp [next, hc]
      rw [hstep, ih, Literal.endsComment_cons hcd hhead]

/-- A slash that begins no comment is like any other character. -/
theorem endsAt_slash_iff {t : Text} (ht : t.head? ≠ some '*') :
    EndsAt nested ⟨.slash, depth⟩ t depth' ↔ EndsAt nested ⟨.plain, depth⟩ t depth' := by
  cases t with
  | nil => simp [EndsAt.nil_iff, Mode.outside]
  | cons c t =>
      have hc : c ≠ '*' := by simpa using ht
      simp [EndsAt.cons_iff, next, hc]

/-- A scan gets to the end of a text, outside literals, just if the
literals are closed and all pieces belong to the segment. -/
theorem endsAt_iff (t : Text) :
    EndsAt nested ⟨.plain, depth⟩ t depth'
      ↔ (∀ p ∈ pieces t, p.closed = true) ∧ passed nested depth (pieces t) = some depth' := by
  fun_induction pieces t generalizing depth with
  | case1 =>
      rw [EndsAt.nil_iff]
      simp [Mode.outside, passed]
  | case2 c r p rest h ih =>
      -- A literal is gone over by the lemma for its kind, and the scan is outside behind it.
      rcases Literal.take?_cases h with ⟨q, r', hq, heq, rfl, rfl⟩ | ⟨r', heq, rfl, rfl⟩
      · rw [heq, EndsAt.cons_iff]
        simp only [next, nextOutside, hq, dif_pos, Option.some.injEq, exists_eq_left']
        rw [endsAt_string_iff hq, ih, List.forall_mem_cons, passed_cons]
        simp [Piece.closed, Piece.passed, and_assoc]
      · rw [heq, EndsAt.cons_iff]
        have hslash : nextOutside nested depth '/' = some ⟨.slash, depth⟩ := by
          simp [nextOutside, isQuote, apostrophe]
        simp only [next, hslash, Option.some.injEq, exists_eq_left']
        rw [EndsAt.cons_iff]
        simp only [next, if_true, Option.some.injEq, exists_eq_left']
        rw [endsAt_comment_iff, ih, List.forall_mem_cons, passed_cons]
        simp [Piece.closed, Piece.passed, and_assoc]
  | case3 c r h ih =>
      obtain ⟨hq, hstar⟩ := Literal.take?_eq_none.mp h
      rw [EndsAt.cons_iff, List.forall_mem_cons, passed_cons]
      simp only [next, nextOutside, hq, Bool.false_eq_true, dif_neg, not_false_eq_true]
      by_cases hc : c = '/'
      · -- A scan remembers the slash, a piece does not; behind it there is no star.
        have hends : endsSegment nested depth c = false := by simp [endsSegment, hc]
        have hdepth : Node.bracketDepth depth c = depth := by simp [Node.bracketDepth, hc]
        simp only [hc, if_true, Option.some.injEq, exists_eq_left']
        rw [endsAt_slash_iff (hstar hc), ih]
        rw [hc] at hends hdepth
        simp [Piece.closed, Piece.passed, hends, hdepth]
      · simp only [hc, if_false]
        cases hends : endsSegment nested depth c with
        | true => simp [Piece.passed, hends]
        | false => simp [Piece.passed, hends, Piece.closed, ih]

end

/-! ### Blanks -/

/-- Where one or more blanks lead. -/
def pastBlank (s : Scan) : Scan :=
  match s.mode with
  | .plain => ⟨.plain, s.depth⟩
  | .slash => ⟨.plain, s.depth⟩
  | .string q => ⟨.string q, s.depth⟩
  | .escape q => ⟨.string q, s.depth⟩
  | .comment => ⟨.comment, s.depth⟩
  | .star => ⟨.comment, s.depth⟩

/-- A second blank leads nowhere else. -/
theorem pastBlank_pastBlank (s : Scan) : s.pastBlank.pastBlank = s.pastBlank := by
  obtain ⟨mode, depth⟩ := s
  cases mode <;> rfl

/-- Blanks open and close no brackets. -/
theorem depth_pastBlank (s : Scan) : s.pastBlank.depth = s.depth := by
  obtain ⟨mode, depth⟩ := s
  cases mode <;> rfl

/-- They begin and end no literal. -/
theorem outside_pastBlank (s : Scan) : s.pastBlank.mode.outside = s.mode.outside := by
  obtain ⟨mode, depth⟩ := s
  cases mode <;> rfl

section

variable {nested : Bool} {s s' : Scan} {c : Char}

/-- Outside literals a blank is passed over. -/
theorem nextOutside_blank (hc : isBlank c = true) (depth : Nat) :
    nextOutside nested depth c = some ⟨.plain, depth⟩ := by
  have hmarks : c ∉ Text.marks := Text.not_mem_marks hc
  have hslash : c ≠ '/' := Text.ne_of_isBlank hc (by decide)
  simp [nextOutside, Text.isQuote_eq_false hc, hslash, Text.endsSegment_of_not_mem hmarks,
    Text.bracketDepth_of_not_mem hmarks]

/-- A space is passed over everywhere. -/
theorem next_space : next nested s ' ' = some s.pastBlank := by
  obtain ⟨mode, depth⟩ := s
  have houtside : nextOutside nested depth ' ' = some ⟨.plain, depth⟩ :=
    nextOutside_blank (by decide) depth
  cases mode with
  | plain => exact houtside
  | slash => exact houtside
  | string q =>
      have hq : ' ' ≠ q.val := (Literal.ne_of_isQuote q.property (by decide)).symm
      simp [next, hq, pastBlank]
  | escape q => rfl
  | comment => rfl
  | star => rfl

/-- All blanks lead where a space does, if they lead anywhere: a line feed
in a string does not. -/
theorem eq_pastBlank_of_next (hc : isBlank c = true) (h : next nested s c = some s') :
    s' = s.pastBlank := by
  -- None of the characters that a mode looks for is a blank.
  have hne : ∀ d, isBlank d = false → c ≠ d := fun d hd => Text.ne_of_isBlank hc hd
  obtain ⟨mode, depth⟩ := s
  cases mode with
  | plain =>
      have hnext := (nextOutside_blank hc depth).symm.trans h
      exact (Option.some.inj hnext).symm
  | slash =>
      simp only [next, hne '*' (by decide), if_false] at h
      have hnext := (nextOutside_blank hc depth).symm.trans h
      exact (Option.some.inj hnext).symm
  | string q =>
      have hcq : c ≠ q.val := fun heq => by
        have hquote := Text.isQuote_eq_false hc
        rw [heq, q.property] at hquote
        cases hquote
      simp only [next, hne '\\' (by decide), hcq, if_false] at h
      split at h
      · cases h
      · exact (Option.some.inj h).symm
  | escape q => exact (Option.some.inj h).symm
  | comment =>
      simp only [next, hne '*' (by decide), if_false] at h
      exact (Option.some.inj h).symm
  | star =>
      simp only [next, hne '*' (by decide), hne '/' (by decide), if_false] at h
      exact (Option.some.inj h).symm

/-- Any number of blanks leads where one does. -/
theorem eq_pastBlank_of_along {gap : Text} (hgap : Text.blank gap = true) (hne : gap ≠ [])
    (h : along nested s gap = some s') : s' = s.pastBlank := by
  induction gap generalizing s with
  | nil => exact absurd rfl hne
  | cons c gap ih =>
      rw [Text.blank_iff, List.forall_mem_cons] at hgap
      obtain ⟨s₁, hnext, halong⟩ := along_cons.mp h
      obtain rfl := eq_pastBlank_of_next hgap.1 hnext
      cases gap with
      | nil =>
          cases halong
          rfl
      | cons d gap =>
          rw [ih (Text.blank_iff.mpr hgap.2) (by simp) halong, pastBlank_pastBlank]

/-- So are any number of them. -/
theorem along_blank {gap : Text} (hgap : Text.blank gap = true) (depth : Nat) :
    along nested ⟨.plain, depth⟩ gap = some ⟨.plain, depth⟩ := by
  induction gap with
  | nil => rfl
  | cons c gap ih =>
      rw [Text.blank_iff, List.forall_mem_cons] at hgap
      exact along_cons.mpr ⟨_, nextOutside_blank hgap.1 depth, ih (Text.blank_iff.mpr hgap.2)⟩

end

namespace EndsAt

variable {nested : Bool} {s : Scan} {t : Text} {depth : Nat}

/-- Blanks in front, outside literals, do nothing. -/
theorem gap_iff {gap : Text} (hgap : Text.blank gap = true) {d : Nat} :
    EndsAt nested ⟨.plain, d⟩ (gap ++ t) depth ↔ EndsAt nested ⟨.plain, d⟩ t depth := by
  rw [append_iff, along_blank hgap]
  simp

/-- Blanks at the end do nothing. -/
theorem of_append_gap {gap : Text} (hgap : Text.blank gap = true)
    (h : EndsAt nested s (t ++ gap) depth) : EndsAt nested s t depth := by
  by_cases hne : gap = []
  · subst hne
    simpa using h
  · obtain ⟨s₁, ht, mode, hmode, halong⟩ := append_iff.mp h
    -- The scan was outside literals before the blanks, or it would not be behind them.
    have hs := eq_pastBlank_of_along hgap hne halong
    have hdepth : s₁.depth = depth := by
      rw [← depth_pastBlank, ← hs]
    refine ⟨s₁.mode, ?_, ?_⟩
    · rw [← outside_pastBlank, ← hs]
      exact hmode
    · rw [ht, ← hdepth]

/-- A text without the blanks at its ends. -/
theorem trim {d : Nat} (h : EndsAt nested ⟨.plain, d⟩ t depth) :
    EndsAt nested ⟨.plain, d⟩ (Text.trim t) depth := by
  obtain ⟨front, back, hfront, hback, heq⟩ := Text.exists_eq_trim t
  rw [heq, gap_iff hfront] at h
  exact of_append_gap hback h

/-- A text whose blanks are collapsed, inside literals too. -/
theorem collapse (hends : Text.HasEnds t) (h : EndsAt nested s t depth) :
    EndsAt nested s (Text.collapse t) depth := by
  induction hn : t.length using Nat.strongRecOn generalizing s t with
  | ind n ih =>
      rcases Text.collapse_cases hends with heq | ⟨word, gap, rest, hgap, hne, hrest, hlt, rfl, heq⟩
      · rwa [heq]
      · -- The space does to the scan what the blanks do.
        obtain ⟨s₁, hword, hbehind⟩ := append_iff.mp h
        obtain ⟨s₂, halong, hinside⟩ := append_iff.mp hbehind
        obtain rfl := eq_pastBlank_of_along hgap hne halong
        rw [heq, append_iff]
        exact ⟨s₁, hword, cons_iff.mpr ⟨_, next_space, ih _ (hn ▸ hlt) hrest hinside rfl⟩⟩

end EndsAt

end Scan

end Stylesheet
