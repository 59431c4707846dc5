import Stylesheet.Proofs.Tightening

/-!
# Values written short

What becomes of the value of a declaration in compressed output. It is
collapsed, tight around commas, and as good a value as before: its literals
are closed and it leaves as many brackets open (`isShort_compress`).

Writing it short a second time changes little. Blanks and colours are done
with after the first time, and a weight that is a number stays one. Only
dropping units can leave something to do, because it comes last: a colour
may appear where `rgb(0px,0,0)` was, and a zero where `0px.0px` was.
`compress_compress`: if there is none, nothing changes any more.

Comments behind a value are words of it for the next reader.
`compress_append_comments`: they change nothing if each of them stays as it
is when it is written short.
-/

set_option autoImplicit false

namespace Stylesheet

namespace Value

open Text

/-- A value as compressed output has it, with `depth` brackets open behind
it. -/
structure IsShort (nested : Bool) (depth : Nat) (t : Text) : Prop where
  collapsed : IsCollapsed t
  tight : IsTight [','] t
  endsAt : Scan.EndsAt nested ⟨.plain, 0⟩ t depth

namespace IsShort

variable {nested : Bool} {depth : Nat} {t : Text}

/-- The literals of a short value are closed, because its end was reached
outside of them. -/
theorem closed (h : IsShort nested depth t) : ∀ p ∈ pieces t, p.closed = true :=
  ((Scan.endsAt_iff t).mp h.endsAt).1

/-- Respelling keeps a value short. New spellings are solid, so they give no
reason to collapse or to tighten again. -/
theorem respell (h : IsShort nested depth t) {f : Respeller} (hf : IsRespelling isSolid f) :
    IsShort nested depth (respell f t) where
  collapsed := by
    refine hf.isCollapsed_respell (fun c hc => ?_) h.collapsed
    simp only [isSolid, Bool.and_eq_true, Bool.not_eq_true'] at hc
    exact hc.1
  tight := hf.isTight_respell h.closed h.tight
  endsAt := hf.endsAt_respell h.endsAt

end IsShort

section

variable {t : Text} (hfree : FreeOf allMarks t)

include hfree

/-- Without marks that begin literals each character is a piece. -/
theorem pieces_eq_map_plain : pieces t = t.map .plain := by
  have happend := pieces_append_of_freeOf ((freeOf_structureMarks hfree).mono literalMarks_subset) []
  simpa [pieces] using happend

/-- A word without marks leaves no bracket open. -/
theorem endsAt_of_freeOf (nested : Bool) : Scan.EndsAt nested ⟨.plain, 0⟩ t 0 := by
  rw [Scan.endsAt_iff, pieces_eq_map_plain hfree]
  refine ⟨fun p hp => ?_, ?_⟩
  · obtain ⟨c, -, rfl⟩ := List.mem_map.mp hp
    rfl
  · rw [RowRespelled.passed_map_plain (freeOf_structureMarks hfree), foldl_bracketDepth hfree]

/-- A word that is neither blank nor tightened is short. -/
theorem isShort_of_freeOf (hsolid : t.all isSolid = true) (nested : Bool) : IsShort nested 0 t := by
  have hchar : ∀ c ∈ t, isBlank c = false ∧ c ≠ ',' := by
    intro c hc
    simpa [isSolid] using List.all_eq_true.mp hsolid c hc
  refine ⟨.of_not_blank fun c hc => (hchar c hc).1, ?_, endsAt_of_freeOf hfree nested⟩
  refine isChain_of_marks fun p hp => ?_
  rw [pieces_eq_map_plain hfree] at hp
  obtain ⟨c, hc, rfl⟩ := List.mem_map.mp hp
  simpa [Piece.isMark] using (hchar c hc).2

end

/-! ### Font weights -/

/-- A weight stays what it is, unless it is one of two words. -/
theorem weight_cases (t : Text) : weight t = t
    ∨ lower t = "bold".toList ∧ weight t = "700".toList
    ∨ lower t = "normal".toList ∧ weight t = "400".toList := by
  unfold weight
  split
  · rename_i hbold
    exact .inr (.inl ⟨eq_of_beq hbold, rfl⟩)
  · split
    · rename_i hnormal
      exact .inr (.inr ⟨eq_of_beq hnormal, rfl⟩)
    · exact .inl rfl

/-- A text with a character that stands in neither word is no weight that
is given by a word. -/
theorem weight_eq_self {t : Text} {c : Char} (hc : c ∈ t)
    (hbold : c.toLower ∉ "bold".toList) (hnormal : c.toLower ∉ "normal".toList) : weight t = t := by
  have hlower : c.toLower ∈ lower t := List.mem_map_of_mem hc
  rcases weight_cases t with heq | ⟨heq, -⟩ | ⟨heq, -⟩
  · exact heq
  · rw [heq] at hlower
    exact absurd hlower hbold
  · rw [heq] at hlower
    exact absurd hlower hnormal

/-- The number that a weight becomes is short. -/
theorem IsShort.weight {nested : Bool} {depth : Nat} {t : Text} (h : IsShort nested depth t) :
    IsShort nested depth (weight t) := by
  have hdepth : FreeOf allMarks t → depth = 0 := by
    intro hfree
    have hzero := ((Scan.endsAt_iff t).mp (endsAt_of_freeOf hfree nested)).2
    have hpassed := ((Scan.endsAt_iff t).mp h.endsAt).2
    rw [hzero] at hpassed
    exact (Option.some.inj hpassed).symm
  rcases weight_cases t with heq | ⟨hbold, heq⟩ | ⟨hnormal, heq⟩
  · rwa [heq]
  · rw [heq, hdepth (freeOf_of_map_toLower hbold (by decide))]
    exact isShort_of_freeOf (by decide) (by decide) nested
  · rw [heq, hdepth (freeOf_of_map_toLower hnormal (by decide))]
    exact isShort_of_freeOf (by decide) (by decide) nested

/-- A weight that has become a number stays one. -/
theorem weight_weight (t : Text) : weight (weight t) = weight t := by
  rcases weight_cases t with heq | ⟨-, heq⟩ | ⟨-, heq⟩
  · rw [heq, heq]
  · rw [heq]
    decide
  · rw [heq]
    decide

/-! ### Step by step -/

section

variable (options : FormatOptions) (name : Text)

/-- Colours in hexadecimal, if they are wanted so. -/
def coloured (t : Text) : Text := if options.rgbToHex then hexColors t else t

/-- A weight as a number, if it is wanted so. -/
def weighed (t : Text) : Text :=
  if options.fontWeightsToNumbers && sameLetters name "font-weight".toList then weight t else t

/-- Zeros without their units, if they are wanted so. -/
def unitless (t : Text) : Text := if options.removeEmptyMeasurements then dropZeroUnits t else t

/-- The steps in the order in which they are done. -/
theorem compress_eq (value : Text) : compress options name value
    = unitless options (weighed options name (coloured options (tighten [','] (collapse value)))) :=
  rfl

variable {options name}

/-- The step does nothing if it is not wanted or finds nothing. -/
theorem coloured_eq_self {t : Text} (h : options.rgbToHex = true → hexColors t = t) :
    coloured options t = t := by
  unfold coloured
  split
  · exact h ‹_›
  · rfl

/-- The step does nothing if there is nothing to find, whatever the property
is. -/
theorem weighed_eq_self {t : Text} (h : weight t = t) : weighed options name t = t := by
  unfold weighed
  split
  · exact h
  · rfl

/-- The step does nothing if it is not wanted or finds nothing. -/
theorem unitless_eq_self {t : Text} (h : options.removeEmptyMeasurements = true → dropZeroUnits t = t) :
    unitless options t = t := by
  unfold unitless
  split
  · exact h ‹_›
  · rfl

variable {nested : Bool} {depth : Nat} {t : Text} (h : IsShort nested depth t)

include h

/-- Writing colours in hexadecimal keeps a value short. -/
theorem IsShort.coloured : IsShort nested depth (coloured options t) := by
  unfold Value.coloured
  split
  · exact h.respell isRespelling_colorAt?
  · exact h

/-- Writing a weight as a number keeps a value short. -/
theorem IsShort.weighed : IsShort nested depth (weighed options name t) := by
  unfold Value.weighed
  split
  · exact h.weight
  · exact h

/-- Dropping units keeps a value short. -/
theorem IsShort.unitless : IsShort nested depth (unitless options t) := by
  unfold Value.unitless
  split
  · exact h.respell isRespelling_zeroAt?
  · exact h

end

/-- The step leaves itself nothing to do. -/
theorem coloured_coloured (options : FormatOptions) (t : Text) :
    coloured options (coloured options t) = coloured options t := by
  refine coloured_eq_self fun hrgb => ?_
  rw [coloured, if_pos hrgb, hexColors_hexColors]

/-- A weight is no colour. -/
theorem coloured_weighed (options : FormatOptions) (name t : Text) :
    coloured options (weighed options name (coloured options t))
      = weighed options name (coloured options t) := by
  unfold weighed
  split
  · rcases weight_cases (coloured options t) with heq | ⟨-, heq⟩ | ⟨-, heq⟩
    · rw [heq, coloured_coloured]
    · rw [heq]
      exact coloured_eq_self fun _ => by decide
    · rw [heq]
      exact coloured_eq_self fun _ => by decide
  · exact coloured_coloured options t

/-- Where a unit was dropped, a zero is left. -/
theorem zero_mem_of_respelled {b t u : Text} (h : Respelled isSolid zeroAt? b t u) :
    u = t ∨ '0' ∈ u := by
  induction h with
  | nil b => exact .inl rfl
  | keep hnone hr ih =>
      rcases ih with rfl | hzero
      · exact .inl rfl
      · exact .inr (List.mem_cons_of_mem _ hzero)
  | @found b kept x y r u hfound hkept hxy hr ih =>
      obtain ⟨kept', -, -, -, heq, -⟩ := zeroAt?_eq_some hfound
      rw [← List.append_assoc, heq]
      exact .inr (by simp)

/-- A number is no weight that is given by a word, nor is what dropping
units makes of a value. -/
theorem weighed_unitless (options : FormatOptions) (name t : Text) :
    weighed options name (unitless options (weighed options name t))
      = unitless options (weighed options name t) := by
  have hzero : unitless options (weighed options name t) = weighed options name t
      ∨ '0' ∈ unitless options (weighed options name t) := by
    unfold unitless
    split
    · exact zero_mem_of_respelled (isRespelling_zeroAt?.respelled [] _)
    · exact .inl rfl
  rcases hzero with heq | hzero
  · rw [heq]
    unfold weighed
    split
    · exact weight_weight t
    · rfl
  · exact weighed_eq_self (weight_eq_self hzero (by decide) (by decide))

/-! ### Short values -/

/-- A value that was collapsed and tightened is short. The brackets it leaves
open are those of the value itself, which may be the front of a longer one. -/
theorem isShort_tighten {nested : Bool} {depth : Nat} {value : Text} (hends : HasEnds value)
    (h : Scan.EndsAt nested ⟨.plain, 0⟩ value depth) :
    IsShort nested depth (tighten [','] (collapse value)) := by
  have hmarks : [','] ⊆ tightMarks := by simp [tightMarks]
  have hcollapse := h.collapse hends
  have hclosed := ((Scan.endsAt_iff _).mp hcollapse).1
  exact ⟨isCollapsed_tighten hmarks hclosed (isCollapsed_collapse value),
    isTight_tighten hmarks hclosed, endsAt_tighten hmarks hcollapse⟩

/-- A compressed value is short. The later steps keep what the first two have
made. -/
theorem isShort_compress (options : FormatOptions) (name : Text) {nested : Bool} {depth : Nat}
    {value : Text} (hends : HasEnds value) (h : Scan.EndsAt nested ⟨.plain, 0⟩ value depth) :
    IsShort nested depth (compress options name value) := by
  rw [compress_eq]
  exact (isShort_tighten hends h).coloured.weighed.unitless

/-- A short value stays if none of the steps finds anything. -/
theorem IsShort.compress_eq_self {nested : Bool} {depth : Nat} {t : Text} (h : IsShort nested depth t)
    {options : FormatOptions} {name : Text} (hcoloured : Value.coloured options t = t)
    (hweighed : Value.weighed options name t = t) (hunitless : Value.unitless options t = t) :
    compress options name t = t := by
  rw [compress_eq, h.collapsed.collapse_eq, h.tight.tighten_eq (by simp [tightMarks]) h.closed,
    hcoloured, hweighed, hunitless]

/-- There is nothing left to do in a short value: dropping units has not
brought up a colour or a zero. -/
def IsSettled (options : FormatOptions) (t : Text) : Prop :=
  options.removeEmptyMeasurements = true →
    dropZeroUnits t = t ∧ (options.rgbToHex = true → hexColors t = t)

/-- None of the steps finds anything in a settled value. -/
theorem IsSettled.steps {options : FormatOptions} {name value : Text}
    (hsettled : IsSettled options (compress options name value)) :
    coloured options (compress options name value) = compress options name value
      ∧ weighed options name (compress options name value) = compress options name value
      ∧ unitless options (compress options name value) = compress options name value := by
  refine ⟨?_, ?_, ?_⟩
  · -- Only dropping units, the last step, can bring up a colour.
    by_cases hzeros : options.removeEmptyMeasurements = true
    · exact coloured_eq_self (hsettled hzeros).2
    · rw [compress_eq, unitless, if_neg hzeros, coloured_weighed]
  · rw [compress_eq, weighed_unitless]
  · exact unitless_eq_self fun hzeros => (hsettled hzeros).1

/-- Compressing a value a second time does nothing, if it is settled. Dropping
a unit may put characters together that make a colour or a zero, and then a
second run would find it. -/
theorem compress_compress (options : FormatOptions) (name : Text) {nested : Bool} {depth : Nat}
    {value : Text} (hends : HasEnds value) (h : Scan.EndsAt nested ⟨.plain, 0⟩ value depth)
    (hsettled : IsSettled options (compress options name value)) :
    compress options name (compress options name value) = compress options name value := by
  obtain ⟨hcoloured, hweighed, hunitless⟩ := hsettled.steps
  exact (isShort_compress options name hends h).compress_eq_self hcoloured hweighed hunitless

end Value

/-! ### Comments behind a value -/

section

open Literal

variable {cs : List Text} (hcs : ∀ c ∈ cs, IsClosedComment c)

include hcs

/-- Closed comments are pieces, whatever follows them. -/
theorem pieces_comments (rest : Text) : pieces (cs.flatten ++ rest) = cs.map .comment ++ pieces rest := by
  induction cs with
  | nil => rfl
  | cons c cs ih =>
      obtain ⟨hc, hcs⟩ := List.forall_mem_cons.mp hcs
      rw [List.flatten_cons, List.append_assoc, pieces_of_take? (hc.take? _), ih hcs]
      rfl

/-- Text of closed literals with comments behind it. -/
theorem pieces_append_comments {t : Text} (ht : ∀ p ∈ pieces t, p.closed = true) :
    pieces (t ++ cs.flatten) = pieces t ++ cs.map .comment := by
  have hhead : cs.flatten.head? ≠ some '*' := by
    cases cs with
    | nil => simp
    | cons c cs =>
        obtain ⟨body, rfl, -⟩ := hcs c List.mem_cons_self
        simp
  have hpieces := pieces_comments hcs []
  rw [List.append_nil] at hpieces
  rw [pieces_append_of_head ht hhead, hpieces, pieces, List.append_nil]

/-- Comments are respelled one by one. -/
theorem IsRespelling.respellFrom_comments {new : Char → Bool} {f : Respeller}
    (hf : IsRespelling new f) (hkept : ∀ c ∈ cs, respell f c = c) (b : Text) :
    respellFrom f b cs.flatten = cs.flatten := by
  induction cs generalizing b with
  | nil => rfl
  | cons c cs ih =>
      obtain ⟨hc, hcs⟩ := List.forall_mem_cons.mp hcs
      obtain ⟨hckept, hkept⟩ := List.forall_mem_cons.mp hkept
      rw [List.flatten_cons, (hf.respellFrom_comment hc).2, hckept, ih hcs hkept]

/-- Comments behind a text do not change how it is respelled. Each must stay as
it is by itself: a comment is not protected from being respelled. -/
theorem IsRespelling.respell_append_comments {new : Char → Bool} {f : Respeller}
    (hf : IsRespelling new f) (hkept : ∀ c ∈ cs, respell f c = c) (t : Text) :
    respell f (t ++ cs.flatten) = respell f t ++ cs.flatten := by
  have hcomments := hf.respellFrom_comments hcs hkept
  cases cs with
  | nil => simp
  | cons c cs =>
      obtain ⟨body, hbody, -⟩ := hcs c List.mem_cons_self
      obtain ⟨rest, hrest⟩ : ∃ rest, (c :: cs).flatten = '/' :: rest := by
        rw [List.flatten_cons, hbody]
        exact ⟨_, rfl⟩
      rw [hrest] at hcomments ⊢
      rw [respell, hf.respellFrom_append (by decide), hcomments]
      rfl

end

namespace Value

open Text Literal

/-- Collapsed texts one behind the other. -/
theorem isCollapsed_flatten {ts : List Text} (h : ∀ t ∈ ts, IsCollapsed t) :
    IsCollapsed ts.flatten := by
  induction ts with
  | nil => exact .of_not_blank (by simp)
  | cons t ts ih =>
      obtain ⟨ht, hts⟩ := List.forall_mem_cons.mp h
      exact ht.append (ih hts)

/-- Comments open and close no brackets. -/
theorem passed_comments (nested : Bool) (depth : Nat) (cs : List Text) :
    passed nested depth (cs.map .comment) = some depth := by
  induction cs with
  | nil => rfl
  | cons c cs ih => exact passed_cons.mpr ⟨depth, rfl, ih⟩

/-- A comment that stays as it is when it is written as a part of a
value. -/
structure IsQuiet (options : FormatOptions) (c : Text) : Prop where
  collapsed : collapse c = c
  coloured : coloured options c = c
  unitless : unitless options c = c

section

variable {options : FormatOptions} {cs : List Text} (hcs : ∀ c ∈ cs, IsClosedComment c)
  (hquiet : ∀ c ∈ cs, IsQuiet options c)

include hcs hquiet

/-- Comments behind a short value leave it short. -/
theorem IsShort.append_comments {nested : Bool} {depth : Nat} {t : Text} (h : IsShort nested depth t) :
    IsShort nested depth (t ++ cs.flatten) := by
  have hpieces := pieces_append_comments hcs h.closed
  -- Comments are neither blanks nor marks nor brackets,
  -- so all three conditions are left as they are.
  have hcomment : ∀ p ∈ cs.map Piece.comment, ∃ c ∈ cs, p = .comment c := by
    intro p hp
    obtain ⟨c, hc, rfl⟩ := List.mem_map.mp hp
    exact ⟨c, hc, rfl⟩
  refine ⟨h.collapsed.append ?_, ?_, ?_⟩
  · exact isCollapsed_flatten fun c hc => collapse_eq_self_iff.mp (hquiet c hc).collapsed
  · rw [IsTight, hpieces]
    refine List.isChain_append.mpr ⟨h.tight, isChain_of_marks fun p hp => ?_, fun p _ q hq => ?_⟩
    · obtain ⟨c, -, rfl⟩ := hcomment p hp
      rfl
    · obtain ⟨c, -, rfl⟩ := hcomment q (List.mem_of_mem_head? hq)
      refine ⟨fun _ _ heq => ?_, fun hmark => ?_⟩
      · cases heq
      · cases hmark
  · obtain ⟨hclosed, hpassed⟩ := (Scan.endsAt_iff t).mp h.endsAt
    rw [Scan.endsAt_iff, hpieces, List.forall_mem_append]
    refine ⟨⟨hclosed, fun p hp => ?_⟩, ?_⟩
    · obtain ⟨c, hc, rfl⟩ := hcomment p hp
      exact (hcs c hc).closed
    · rw [passed_append, hpassed, Option.bind_some]
      exact passed_comments nested depth cs

omit hquiet in
/-- The step does nothing with comments behind the value, if it does nothing in
each of them. -/
theorem coloured_append_comments (hkept : ∀ c ∈ cs, coloured options c = c) {t : Text}
    (h : coloured options t = t) : coloured options (t ++ cs.flatten) = t ++ cs.flatten := by
  refine coloured_eq_self fun hrgb => ?_
  simp only [coloured, if_pos hrgb] at hkept h
  have happend := isRespelling_colorAt?.respell_append_comments hcs hkept t
  rwa [show respell colorAt? t = t from h] at happend

omit hquiet in
/-- The same for dropping units. -/
theorem unitless_append_comments (hkept : ∀ c ∈ cs, unitless options c = c) {t : Text}
    (h : unitless options t = t) : unitless options (t ++ cs.flatten) = t ++ cs.flatten := by
  refine unitless_eq_self fun hzeros => ?_
  simp only [unitless, if_pos hzeros] at hkept h
  have happend := isRespelling_zeroAt?.respell_append_comments hcs hkept t
  rwa [show respell zeroAt? t = t from h] at happend

/-- Compressing does nothing to a short value with quiet comments behind it.
This is what reading printed output gives, where comments behind the last
declaration become part of its value. -/
theorem compress_append_comments {nested : Bool} {depth : Nat} {name t : Text}
    (h : IsShort nested depth t) (hcoloured : coloured options t = t)
    (hweighed : weighed options name t = t) (hunitless : unitless options t = t) :
    compress options name (t ++ cs.flatten) = t ++ cs.flatten := by
  refine (h.append_comments hcs hquiet).compress_eq_self ?_ ?_ ?_
  · exact coloured_append_comments hcs (fun c hc => (hquiet c hc).coloured) hcoloured
  · cases cs with
    | nil => simpa using hweighed
    | cons c cs =>
        -- No weight has a slash in it.
        obtain ⟨body, hbody, -⟩ := hcs c List.mem_cons_self
        refine weighed_eq_self (weight_eq_self (c := '/') ?_ (by decide) (by decide))
        simp [hbody]
  · exact unitless_append_comments hcs (fun c hc => (hquiet c hc).unitless) hunitless

end

end Value

end Stylesheet
