import Mathlib.Data.List.Chain
import Mathlib.Data.List.TakeWhile
import Stylesheet.Text.Basic

/-!
# Trimmed and collapsed texts

The texts of a parsed stylesheet are trimmed, and most are collapsed.
`Text.collapse` is defined through the words of a text; here it is told by
the characters, so that one can see what happens when texts are put
together. A text is collapsed when its ends are not blank, its only blanks
are spaces, and no two of them are neighbours (`IsCollapsed`).

`collapse_eq_self_iff`: the collapsed texts are those that `collapse`
leaves alone. `trim_gap` and `collapse_gap`: blanks around such a text are
lost, and nothing else is.
-/

set_option autoImplicit false

namespace Stylesheet

namespace Text

/-! ### Blanks around a text -/

/-- The ends of a text are not blank. -/
structure HasEnds (t : Text) : Prop where
  head : ∀ c ∈ t.head?, isBlank c = false
  last : ∀ c ∈ t.getLast?, isBlank c = false

/-- One character that is not blank is at both ends. -/
theorem HasEnds.singleton {c : Char} (hc : isBlank c = false) : HasEnds [c] :=
  ⟨by simpa using hc, by simpa using hc⟩

/-- Without blanks there are none at the ends. The empty text counts as such. -/
theorem HasEnds.of_forall {t : Text} (h : ∀ c ∈ t, isBlank c = false) : HasEnds t :=
  ⟨fun c hc => h c (List.mem_of_mem_head? hc), fun c hc => h c (List.mem_of_mem_getLast? hc)⟩

/-- What stands between two texts is not at the ends. Neither of them may be
empty, or the middle would be at an end. -/
theorem HasEnds.append {s t : Text} (hs : HasEnds s) (ht : HasEnds t) (hsne : s ≠ [])
    (htne : t ≠ []) (between : Text) : HasEnds (s ++ (between ++ t)) := by
  refine ⟨?_, ?_⟩
  · rw [List.head?_append_of_ne_nil _ hsne]
    exact hs.head
  · rw [List.getLast?_append_of_ne_nil _ (by simp [htne]), List.getLast?_append_of_ne_nil _ htne]
    exact ht.last

/-- A character that is not blank may be added at the end. -/
theorem HasEnds.concat {t : Text} (h : HasEnds t) {c : Char} (hc : isBlank c = false) :
    HasEnds (t ++ [c]) := by
  by_cases hne : t = []
  · subst hne
    exact .singleton hc
  · exact h.append (.singleton hc) hne (by simp) []

/-- Blank texts have nothing but blanks, and the empty text is one of them. -/
theorem blank_iff {t : Text} : blank t = true ↔ ∀ c ∈ t, isBlank c = true := by
  simp [blank]

/-- A text is blank if both of its parts are. -/
theorem blank_append (s t : Text) : blank (s ++ t) = (blank s && blank t) :=
  List.all_append

/-- Blank texts are blank from behind too. -/
theorem blank_reverse (t : Text) : blank t.reverse = blank t :=
  List.all_reverse

/-- Trimming leaves nothing of blank texts only. -/
theorem trimStart_eq_nil_iff {t : Text} : trimStart t = [] ↔ blank t = true := by
  rw [trimStart, List.dropWhile_eq_nil_iff, blank_iff]

/-- Blanks in front are trimmed. -/
theorem trimStart_append {gap : Text} (hgap : blank gap = true) (t : Text) :
    trimStart (gap ++ t) = trimStart t :=
  List.dropWhile_append_of_pos (blank_iff.mp hgap)

/-- Blanks at the end are trimmed. -/
theorem trimEnd_append {gap : Text} (hgap : blank gap = true) (t : Text) :
    trimEnd (t ++ gap) = trimEnd t := by
  unfold trimEnd
  rw [← blank_reverse] at hgap
  rw [List.reverse_append, List.dropWhile_append_of_pos (blank_iff.mp hgap)]

/-- Trimming the front does not reach over a character that is not
blank. -/
theorem trimStart_append_of_not_blank {s : Text} (hs : blank s = false) (t : Text) :
    trimStart (s ++ t) = trimStart s ++ t := by
  have hne : (s.dropWhile isBlank).isEmpty = false := by
    rw [Bool.eq_false_iff]
    intro hempty
    have hall : ∀ c ∈ s, isBlank c = true := by
      simpa [List.isEmpty_iff, List.dropWhile_eq_nil_iff] using hempty
    rw [blank_iff.mpr hall] at hs
    cases hs
  unfold trimStart
  rw [List.dropWhile_append, hne]
  rfl

/-- Trimming the end does not reach over a character that is not blank. -/
theorem trimEnd_append_of_not_blank {t : Text} (ht : blank t = false) (s : Text) :
    trimEnd (s ++ t) = s ++ trimEnd t := by
  have hreverse := trimStart_append_of_not_blank (s := t.reverse) (by rwa [blank_reverse]) s.reverse
  unfold trimEnd
  unfold trimStart at hreverse
  rw [List.reverse_append, hreverse, List.reverse_append, List.reverse_reverse]

/-- Nothing is trimmed before a character that is not blank. -/
theorem trimStart_eq_self {t : Text} (h : ∀ c ∈ t.head?, isBlank c = false) :
    trimStart t = t := by
  cases t with
  | nil => rfl
  | cons c r => exact List.dropWhile_cons_of_neg (by simp [h c rfl])

/-- Nothing is trimmed behind a character that is not blank. -/
theorem trimEnd_eq_self {t : Text} (h : ∀ c ∈ t.getLast?, isBlank c = false) :
    trimEnd t = t := by
  unfold trimEnd
  have hhead : trimStart t.reverse = t.reverse :=
    trimStart_eq_self fun c hc => h c (by rwa [List.head?_reverse] at hc)
  exact (congrArg List.reverse hhead).trans (List.reverse_reverse t)

/-- Trimming takes the blanks around a text away and nothing else. -/
theorem trim_gap {t front back : Text} (h : HasEnds t) (hfront : blank front = true)
    (hback : blank back = true) : trim (front ++ (t ++ back)) = t := by
  unfold trim
  rw [trimStart_append hfront]
  cases t with
  | nil =>
      have hnil := trimStart_append hback []
      rw [List.append_nil] at hnil
      rw [List.nil_append, hnil]
      rfl
  | cons c r =>
      rw [trimStart_eq_self (t := c :: r ++ back) (by simpa using h.head), trimEnd_append hback,
        trimEnd_eq_self h.last]

/-- Blanks on one side only. -/
theorem trim_behind {t front : Text} (h : HasEnds t) (hfront : blank front = true) :
    trim (front ++ t) = t := by
  have htrim : trim (front ++ (t ++ [])) = t := trim_gap h hfront rfl
  rwa [List.append_nil] at htrim

/-- Trimming leaves a text alone whose ends are not blank. -/
theorem trim_eq_self {t : Text} (h : HasEnds t) : trim t = t :=
  show trim ([] ++ t) = t from trim_behind h rfl

/-- Trimming leaves nothing of a blank text. -/
theorem trim_eq_nil {t : Text} (h : blank t = true) : trim t = [] := by
  have htrim : trim (t ++ []) = [] := trim_behind ⟨by simp, by simp⟩ h
  rwa [List.append_nil] at htrim

/-- What `trim` drops are blanks. -/
theorem exists_eq_trim (t : Text) :
    ∃ front back, blank front = true ∧ blank back = true ∧ t = front ++ (trim t ++ back) := by
  refine ⟨t.takeWhile isBlank, ((trimStart t).reverse.takeWhile isBlank).reverse, ?_, ?_, ?_⟩
  · exact List.all_takeWhile
  · rw [blank_reverse]
    exact List.all_takeWhile
  · have hend : trim t ++ ((trimStart t).reverse.takeWhile isBlank).reverse = trimStart t := by
      rw [trim, trimEnd, ← List.reverse_append, List.takeWhile_append_dropWhile,
        List.reverse_reverse]
    rw [hend]
    exact List.takeWhile_append_dropWhile.symm

/-- What is left by trimming has ends that are not blank. -/
theorem hasEnds_trim (t : Text) : HasEnds (trim t) := by
  refine ⟨?_, ?_⟩
  · -- The first character is the one behind the blanks in front.
    intro c hc
    have hstart : trim t <+: trimStart t := by
      rw [trim, trimEnd, ← List.reverse_suffix, List.reverse_reverse]
      exact List.dropWhile_suffix isBlank
    obtain ⟨back, hback⟩ := hstart
    have hhead : (trimStart t).head? = some c := by
      rw [← hback, List.head?_append, Option.mem_def.mp hc]
      rfl
    have hnot := List.head?_dropWhile_not isBlank t
    rwa [show t.dropWhile isBlank = trimStart t from rfl, hhead] at hnot
  · intro c hc
    rw [trim, trimEnd, List.getLast?_reverse] at hc
    have hnot := List.head?_dropWhile_not isBlank (trimStart t).reverse
    rwa [Option.mem_def.mp hc] at hnot

/-! ### Words -/

/-- A separator in front of a text adds an empty part. -/
theorem splitWhere_cons_of_pos {p : Char → Bool} {c : Char} (hc : p c = true) (t : Text) :
    splitWhere p (c :: t) = [] :: splitWhere p t := by
  rw [splitWhere, List.splitOnP_cons_eq_if_modifyHead, if_pos hc]

/-- Any other character goes to the first part, and there is one. -/
theorem splitWhere_cons_of_neg {p : Char → Bool} {c : Char} (hc : p c = false) (t : Text) :
    ∃ part parts, splitWhere p t = part :: parts ∧
      splitWhere p (c :: t) = (c :: part) :: parts := by
  obtain ⟨part, parts, h⟩ := List.exists_cons_of_ne_nil (List.splitOnP_ne_nil p t)
  refine ⟨part, parts, h, ?_⟩
  rw [splitWhere, List.splitOnP_cons_eq_if_modifyHead, if_neg (by simp [hc]), h,
    List.modifyHead_cons]

/-- Separators behind a text add empty parts. -/
theorem splitWhere_append_of_pos {p : Char → Bool} (t : Text) {gap : Text}
    (hgap : ∀ c ∈ gap, p c = true) :
    splitWhere p (t ++ gap) = splitWhere p t ++ gap.map fun _ => [] := by
  induction gap generalizing t with
  | nil => simp
  | cons c gap ih =>
      obtain ⟨hc, hgap⟩ := List.forall_mem_cons.mp hgap
      rw [splitWhere, List.splitOnP_append_cons t gap hc]
      exact congrArg (splitWhere p t ++ ·) (ih [] hgap)

/-- No part holds a separator. -/
theorem eq_false_of_mem_splitWhere {p : Char → Bool} {t part : Text}
    (hpart : part ∈ splitWhere p t) : ∀ c ∈ part, p c = false := by
  induction t generalizing part with
  | nil =>
      rw [splitWhere, List.splitOnP_nil, List.mem_singleton] at hpart
      simp [hpart]
  | cons d t ih =>
      cases hd : p d with
      | true =>
          rw [splitWhere_cons_of_pos hd, List.mem_cons] at hpart
          rcases hpart with rfl | hpart
          · intro c hc
            cases hc
          · exact ih hpart
      | false =>
          -- The character goes to the first part; the others are parts of the rest.
          obtain ⟨first, parts, h, hcons⟩ := splitWhere_cons_of_neg hd t
          rw [hcons, List.mem_cons] at hpart
          rcases hpart with rfl | hpart
          · intro c hc
            rcases List.mem_cons.mp hc with rfl | hc
            · exact hd
            · exact ih (by rw [h]; exact List.mem_cons_self) c hc
          · exact ih (by rw [h]; exact List.mem_cons_of_mem _ hpart)

/-- Blanks behind a text add no words: they end empty parts, and these are
dropped. -/
theorem words_append {gap : Text} (hgap : blank gap = true) (t : Text) :
    words (t ++ gap) = words t := by
  have hempty : ((gap.map fun _ => ([] : Text)).filter (!·.isEmpty)) = [] := by
    simp
  unfold words
  rw [splitWhere_append_of_pos t (blank_iff.mp hgap), List.filter_append, hempty, List.append_nil]

/-- Blanks in front of a text add no words. -/
theorem words_gap {gap : Text} (hgap : blank gap = true) (t : Text) :
    words (gap ++ t) = words t := by
  induction gap with
  | nil => rfl
  | cons c gap ih =>
      rw [blank_iff] at hgap
      unfold words at ih ⊢
      rw [List.cons_append, splitWhere_cons_of_pos (hgap c List.mem_cons_self),
        List.filter_cons_of_neg (by simp),
        ih (blank_iff.mpr fun d hd => hgap d (List.mem_cons_of_mem _ hd))]

/-- A word ends at the first blank. It must not be empty, since empty parts are
no words. -/
theorem words_append_cons {word : Text} (hne : word ≠ []) (hword : ∀ c ∈ word, isBlank c = false)
    {c : Char} (hc : isBlank c = true) (t : Text) :
    words (word ++ c :: t) = word :: words t := by
  unfold words
  rw [splitWhere, List.splitOnP_append_cons_of_forall_mem hword _ hc,
    List.filter_cons_of_pos (by simpa using hne)]

/-- A text without blanks is one word, unless it is empty. -/
theorem words_of_not_blank {word : Text} (hne : word ≠ [])
    (hword : ∀ c ∈ word, isBlank c = false) : words word = [word] := by
  unfold words
  rw [splitWhere, List.splitOnP_eq_singleton hword, List.filter_cons_of_pos (by simpa using hne),
    List.filter_nil]

/-- Words are not empty and have no blanks in them. -/
theorem of_mem_words {t word : Text} (h : word ∈ words t) :
    word ≠ [] ∧ ∀ c ∈ word, isBlank c = false := by
  obtain ⟨hmem, hne⟩ := List.mem_filter.mp h
  exact ⟨by simpa using hne, eq_false_of_mem_splitWhere hmem⟩

/-- Blanks around a text do not matter for collapsing it. -/
theorem collapse_gap {front back : Text} (hfront : blank front = true)
    (hback : blank back = true) (t : Text) : collapse (front ++ (t ++ back)) = collapse t := by
  unfold collapse
  rw [words_gap hfront, words_append hback]

/-- Trimming first makes no difference for collapsing. -/
theorem collapse_trim (t : Text) : collapse (trim t) = collapse t := by
  obtain ⟨front, back, hfront, hback, ht⟩ := exists_eq_trim t
  conv_rhs => rw [ht, collapse_gap hfront hback]

/-! ### Collapsed texts by their characters -/

/-- A text that is collapsed: see `collapse_eq_self_iff`. -/
structure IsCollapsed (t : Text) : Prop extends HasEnds t where
  space : ∀ c ∈ t, isBlank c = true → c = ' '
  single : t.IsChain fun a b => isBlank a = false ∨ isBlank b = false

/-- A text without blanks is collapsed. -/
theorem IsCollapsed.of_not_blank {t : Text} (h : ∀ c ∈ t, isBlank c = false) :
    IsCollapsed t where
  head c hc := h c (List.mem_of_mem_head? hc)
  last c hc := h c (List.mem_of_getLast? hc)
  space c hc hblank := by
    rw [h c hc] at hblank
    cases hblank
  single := List.isChain_iff_forall_rel_of_append_cons_cons.mpr
    fun a b front back ht => .inl (h a (by rw [ht]; simp))

/-- Two collapsed texts with a space between them. Neither may be empty: the
space would be at an end. -/
theorem IsCollapsed.append_space {s t : Text} (hs : IsCollapsed s) (ht : IsCollapsed t)
    (hsne : s ≠ []) (htne : t ≠ []) : IsCollapsed (s ++ ' ' :: t) where
  head c hc := by
    rw [List.head?_append_of_ne_nil _ hsne] at hc
    exact hs.head c hc
  last c hc := by
    rw [List.getLast?_append_of_ne_nil _ (List.cons_ne_nil _ _),
      List.getLast?_cons_of_ne_nil htne] at hc
    exact ht.last c hc
  space c hc hblank := by
    rcases List.mem_append.mp hc with hc | hc
    · exact hs.space c hc hblank
    · rcases List.mem_cons.mp hc with hc | hc
      · exact hc
      · exact ht.space c hc hblank
  single := by
    refine List.isChain_append.mpr ⟨hs.single, ?_, ?_⟩
    · exact List.isChain_cons.mpr ⟨fun c hc => .inr (ht.head c hc), ht.single⟩
    · exact fun c hc d _ => .inl (hs.last c hc)

/-- Two collapsed texts. -/
theorem IsCollapsed.append {s t : Text} (hs : IsCollapsed s) (ht : IsCollapsed t) :
    IsCollapsed (s ++ t) where
  head c hc := by
    cases s with
    | nil => exact ht.head c hc
    | cons d s => exact hs.head c hc
  last c hc := by
    by_cases hne : t = []
    · subst hne
      rw [List.append_nil] at hc
      exact hs.last c hc
    · rw [List.getLast?_append_of_ne_nil _ hne] at hc
      exact ht.last c hc
  space c hc hblank := (List.mem_append.mp hc).elim (hs.space c · hblank) (ht.space c · hblank)
  single := List.isChain_append.mpr ⟨hs.single, ht.single, fun c hc _ _ => .inl (hs.last c hc)⟩

/-- A part of a collapsed text. -/
theorem IsCollapsed.part {front s back : Text} (h : IsCollapsed (front ++ (s ++ back)))
    (hends : HasEnds s) : IsCollapsed s where
  toHasEnds := hends
  space c hc := h.space c (by simp [hc])
  single := (List.isChain_append.mp (List.isChain_append.mp h.single).2.1).1

/-- The separator stands behind a part only if another part follows. -/
theorem joinWith_cons_of_ne_nil (sep word : Text) {rest : List Text} (h : rest ≠ []) :
    joinWith sep (word :: rest) = word ++ (sep ++ joinWith sep rest) := by
  cases rest with
  | nil => exact absurd rfl h
  | cons w rest => simp [joinWith, List.intercalate]

/-- Words with single spaces between them are collapsed, and they make a text
that is not empty if there are any. The second part is carried along because
the induction needs it. -/
theorem isCollapsed_joinWith {ws : List Text}
    (h : ∀ w ∈ ws, w ≠ [] ∧ ∀ c ∈ w, isBlank c = false) :
    IsCollapsed (joinWith [' '] ws) ∧ (ws ≠ [] → joinWith [' '] ws ≠ []) := by
  induction ws with
  | nil =>
      refine ⟨.of_not_blank fun c hc => ?_, fun hne => absurd rfl hne⟩
      simp [joinWith, List.intercalate] at hc
  | cons w ws ih =>
      obtain ⟨hne, hw⟩ := h w List.mem_cons_self
      obtain ⟨hjoin, hjoinne⟩ := ih fun v hv => h v (List.mem_cons_of_mem _ hv)
      by_cases hws : ws = []
      · subst hws
        have hsingle : joinWith [' '] [w] = w := by simp [joinWith, List.intercalate]
        rw [hsingle]
        exact ⟨.of_not_blank hw, fun _ => hne⟩
      · rw [joinWith_cons_of_ne_nil _ _ hws]
        refine ⟨(IsCollapsed.of_not_blank hw).append_space hjoin hne (hjoinne hws), ?_⟩
        intro _
        simp [hne]

/-- Collapsing gives collapsed texts. -/
theorem isCollapsed_collapse (t : Text) : IsCollapsed (collapse t) :=
  (isCollapsed_joinWith fun _ hw => of_mem_words hw).1

/-- What stands behind the first space of a collapsed text is collapsed. -/
theorem IsCollapsed.behind {word t : Text} {c : Char} (h : IsCollapsed (word ++ c :: t))
    (hc : isBlank c = true) : t ≠ [] ∧ IsCollapsed t := by
  have hne : t ≠ [] := by
    rintro rfl
    have hlast := h.last c (by simp)
    rw [hc] at hlast
    cases hlast
  have hchain := List.isChain_cons.mp (List.isChain_append.mp h.single).2.1
  refine ⟨hne, ⟨?_, ?_⟩, ?_, hchain.2⟩
  · intro d hd
    rcases hchain.1 d hd with hfalse | hd
    · rw [hc] at hfalse
      cases hfalse
    · exact hd
  · intro d hd
    refine h.last d ?_
    rwa [List.getLast?_append_of_ne_nil _ (List.cons_ne_nil _ _),
      List.getLast?_cons_of_ne_nil hne]
  · exact fun d hd => h.space d (List.mem_append_right _ (List.mem_cons_of_mem _ hd))

/-- A text is one word, or begins with a word that a blank ends. -/
theorem exists_first_word (t : Text) :
    ∃ word, (∀ c ∈ word, isBlank c = false) ∧
      (t = word ∨ ∃ c rest, isBlank c = true ∧ t = word ++ c :: rest) := by
  induction t with
  | nil => exact ⟨[], List.forall_mem_nil _, .inl rfl⟩
  | cons d t ih =>
      cases hd : isBlank d with
      | true => exact ⟨[], List.forall_mem_nil _, .inr ⟨d, t, hd, rfl⟩⟩
      | false =>
          obtain ⟨word, hword, h⟩ := ih
          refine ⟨d :: word, ?_, ?_⟩
          · intro c hc
            rcases List.mem_cons.mp hc with rfl | hc
            · exact hd
            · exact hword c hc
          · rcases h with rfl | ⟨c, rest, hc, rfl⟩
            · exact .inl rfl
            · exact .inr ⟨c, rest, hc, rfl⟩

/-- A text with ends that are not blank has words, unless it is empty. -/
theorem words_ne_nil {t : Text} (h : HasEnds t) (hne : t ≠ []) : words t ≠ [] := by
  obtain ⟨word, hword, rfl | ⟨c, rest, hc, rfl⟩⟩ := exists_first_word t
  · rw [words_of_not_blank hne hword]
    simp
  · have hwordne : word ≠ [] := by
      rintro rfl
      have hhead := h.head c rfl
      rw [hc] at hhead
      cases hhead
    rw [words_append_cons hwordne hword hc]
    simp

/-- Collapsed texts are left alone. The induction is on the words. -/
theorem IsCollapsed.collapse_eq {t : Text} (h : IsCollapsed t) : collapse t = t := by
  -- By words: what is behind the first one is collapsed and shorter.
  induction hn : t.length using Nat.strongRecOn generalizing t with
  | ind n ih =>
      obtain ⟨word, hword, rfl | ⟨c, rest, hc, rfl⟩⟩ := exists_first_word t
      · by_cases hne : t = []
        · subst hne
          rfl
        · unfold collapse
          rw [words_of_not_blank hne hword]
          simp [joinWith, List.intercalate]
      · have hne : word ≠ [] := by
          rintro rfl
          have hhead := h.head c rfl
          rw [hc] at hhead
          cases hhead
        obtain ⟨hrestne, hbehind⟩ := h.behind hc
        have hrest : collapse rest = rest := ih rest.length (by simp [← hn]; omega) hbehind rfl
        have hwords : words rest ≠ [] := by
          intro hnil
          rw [collapse, hnil] at hrest
          exact hrestne hrest.symm
        obtain rfl : c = ' ' := h.space c (by simp) hc
        unfold collapse at hrest ⊢
        rw [words_append_cons hne hword hc, joinWith_cons_of_ne_nil _ _ hwords, hrest]
        rfl

/-- The collapsed texts are those that collapsing leaves alone. -/
theorem collapse_eq_self_iff {t : Text} : collapse t = t ↔ IsCollapsed t :=
  ⟨fun h => h ▸ isCollapsed_collapse t, IsCollapsed.collapse_eq⟩

/-- By words: a text has no blanks, or it is a word, blanks, and a text
behind them that is collapsed by itself. -/
theorem exists_word_gap {t : Text} (h : HasEnds t) :
    (∀ c ∈ t, isBlank c = false) ∨ ∃ word gap rest, (∀ c ∈ word, isBlank c = false)
      ∧ blank gap = true ∧ gap ≠ [] ∧ HasEnds rest ∧ rest ≠ [] ∧ t = word ++ (gap ++ rest)
      ∧ collapse t = word ++ ' ' :: collapse rest := by
  obtain ⟨word, hword, rfl | ⟨c, behind, hc, rfl⟩⟩ := exists_first_word t
  · exact .inl hword
  · have hwordne : word ≠ [] := by
      rintro rfl
      have hhead := h.head c rfl
      rw [hc] at hhead
      cases hhead
    obtain ⟨gap, rest, rfl, hgap, hhead⟩ : ∃ gap rest, behind = gap ++ rest ∧ blank gap = true
        ∧ ∀ d ∈ rest.head?, isBlank d = false := by
      refine ⟨behind.takeWhile isBlank, behind.dropWhile isBlank,
        List.takeWhile_append_dropWhile.symm, List.all_takeWhile, ?_⟩
      intro d hd
      have hnot := List.head?_dropWhile_not isBlank behind
      rwa [Option.mem_def.mp hd] at hnot
    have hblank : blank (c :: gap) = true := by
      rw [blank_iff, List.forall_mem_cons]
      exact ⟨hc, blank_iff.mp hgap⟩
    -- The text does not end with the blanks, so something is behind them.
    have hrestne : rest ≠ [] := by
      rintro rfl
      have hlast := List.getLast?_eq_some_getLast (List.cons_ne_nil c gap)
      have hnot := h.last _ (by
        rw [List.append_nil, List.getLast?_append_of_ne_nil _ (by simp), hlast]
        rfl)
      rw [blank_iff.mp hblank _ (List.getLast_mem _)] at hnot
      cases hnot
    have hends : HasEnds rest := by
      refine ⟨hhead, fun d hd => h.last d ?_⟩
      rw [← List.cons_append, ← List.append_assoc, List.getLast?_append_of_ne_nil _ hrestne]
      exact hd
    refine .inr ⟨word, c :: gap, rest, hword, hblank, by simp, hends, hrestne, rfl, ?_⟩
    unfold collapse
    rw [words_append_cons hwordne hword hc, words_gap hgap,
      joinWith_cons_of_ne_nil _ _ (words_ne_nil hends hrestne)]
    rfl

/-- The same when it does not matter where the first word ends. -/
theorem collapse_cases {t : Text} (h : HasEnds t) :
    collapse t = t ∨ ∃ word gap rest, blank gap = true ∧ gap ≠ [] ∧ HasEnds rest
      ∧ rest.length < t.length ∧ t = word ++ (gap ++ rest)
      ∧ collapse t = word ++ ' ' :: collapse rest := by
  rcases exists_word_gap h with hword | ⟨word, gap, rest, -, hgap, hne, hends, -, rfl, hcollapse⟩
  · exact .inl (IsCollapsed.of_not_blank hword).collapse_eq
  · refine .inr ⟨word, gap, rest, hgap, hne, hends, ?_, rfl, hcollapse⟩
    have hlength := List.length_pos_iff.mpr hne
    simp only [List.length_append]
    omega

/-- Collapsing keeps the first character. -/
theorem head?_collapse {t : Text} (h : HasEnds t) : (collapse t).head? = t.head? := by
  rcases collapse_cases h with heq | ⟨word, gap, rest, hgap, hne, -, -, rfl, heq⟩
  · rw [heq]
  · cases word with
    | nil =>
        obtain ⟨c, gap, rfl⟩ := List.exists_cons_of_ne_nil hne
        have hc := h.head c rfl
        rw [blank_iff.mp hgap c List.mem_cons_self] at hc
        cases hc
    | cons c word =>
        rw [heq]
        rfl

/-- Collapsing does not make a text empty whose ends are not blank. -/
theorem collapse_ne_nil {t : Text} (h : HasEnds t) (hne : t ≠ []) : collapse t ≠ [] := by
  intro hnil
  have hhead := head?_collapse h
  rw [hnil] at hhead
  exact hne (List.head?_eq_none_iff.mp hhead.symm)

/-! ### What is not lost -/

section

variable {p : Char → Bool} (hp : ∀ c, isBlank c = true → p c = false)

include hp

/-- No character is picked out of a blank text, if no blank is picked. -/
theorem filter_blank {gap : Text} (hgap : blank gap = true) : gap.filter p = [] := by
  rw [List.filter_eq_nil_iff]
  intro c hc
  rw [hp c (blank_iff.mp hgap c hc)]
  decide

/-- Trimming loses blanks only. -/
theorem filter_trim (t : Text) : (trim t).filter p = t.filter p := by
  obtain ⟨front, back, hfront, hback, ht⟩ := exists_eq_trim t
  conv_rhs =>
    rw [ht, List.filter_append, List.filter_append, filter_blank hp hfront, filter_blank hp hback,
      List.nil_append, List.append_nil]

/-- So does collapsing. -/
theorem filter_collapse (t : Text) : (collapse t).filter p = t.filter p := by
  have hends : ∀ {s : Text}, HasEnds s → (collapse s).filter p = s.filter p := by
    intro s hs
    -- What follows the first gap is shorter and is collapsed by itself.
    induction hn : s.length using Nat.strongRecOn generalizing s with
    | ind n ih =>
        rcases collapse_cases hs with heq | ⟨word, gap, rest, hgap, -, hrest, hlength, rfl, heq⟩
        · rw [heq]
        · have hspace : p ' ' = false := hp ' ' (by decide)
          rw [heq, List.filter_append, List.filter_cons_of_neg (by simp [hspace]),
            ih rest.length (by omega) hrest rfl, List.filter_append, List.filter_append,
            filter_blank hp hgap, List.nil_append]
  rw [← collapse_trim, hends (hasEnds_trim t), filter_trim hp]

end

end Text

end Stylesheet
