import Stylesheet.Proofs.Respelling
import Stylesheet.Value

/-!
# Blanks, colours and zeros in new spellings

The three respellings of the printers. Collapsing writes a run of blanks
as one space; it is defined by words, and on a text whose ends are not
blank it is a respelling (`collapse_eq_respell`). Colours are written in
hexadecimal and zeros without their unit.

That they are respellings (`isRespelling_gapAt?`, `isRespelling_colorAt?`,
`isRespelling_zeroAt?`) needs two things of each. What is found has no
marks in it and leaves the brackets as they were. And each reader of which
a respelling is made gives the same answer when a quote or a slash and any
text stand behind: one equation for each, `…_append_mark`.

Colours can be written in hexadecimal once only (`hexColors_hexColors`): a
new spelling has a number sign in it, where no colour goes on, and ends
with a digit, behind which none begins. For zeros this is not so, because
`0px.0px` becomes `0.0px`.
-/

set_option autoImplicit false

namespace Stylesheet

open Text

/-! ### Stretches without marks -/

/-- Structure marks and brackets. -/
def allMarks : List Char := structureMarks ++ ['(', ')', '[', ']']

/-- What is free of all marks is free of those of the structure. -/
theorem freeOf_structureMarks {x : Text} (h : FreeOf allMarks x) : FreeOf structureMarks x :=
  h.mono (List.subset_append_left _ _)

/-- Without brackets the number of open ones stays what it was. -/
theorem foldl_bracketDepth {x : Text} (h : FreeOf allMarks x) (d : Nat) :
    x.foldl Node.bracketDepth d = d := by
  induction x with
  | nil => rfl
  | cons c x ih =>
      obtain ⟨hc, hx⟩ := freeOf_cons.mp h
      have hne : ∀ m ∈ allMarks, c ≠ m := fun m hm heq => hc (heq ▸ hm)
      have hdepth : Node.bracketDepth d c = d := by
        simp [Node.bracketDepth, hne '(' (by decide), hne ')' (by decide), hne '[' (by decide),
          hne ']' (by decide)]
      rw [List.foldl_cons, hdepth, ih hx]

/-- What can be said of a quote and of a slash by trying both. -/
theorem of_mem_literalMarks {p : Char → Bool} (h : literalMarks.all p = true) {c : Char}
    (hc : c ∈ literalMarks) : p c = true :=
  List.all_eq_true.mp h c hc

section

variable {p : Char → Bool} {c : Char} (hc : p c = false) (w r : Text)

include hc

/-- A run of characters ends at a mark that does not belong to it, so it does
not matter what stands behind the mark. -/
theorem takeWhile_append_mark : (w ++ c :: r).takeWhile p = w.takeWhile p := by
  induction w with
  | nil => simp [hc]
  | cons d w ih =>
      rw [List.cons_append]
      by_cases hd : p d = true
      · rw [List.takeWhile_cons_of_pos hd, List.takeWhile_cons_of_pos hd, ih]
      · rw [List.takeWhile_cons_of_neg hd, List.takeWhile_cons_of_neg hd]

/-- What is left behind the run goes on with the mark. -/
theorem dropWhile_append_mark : (w ++ c :: r).dropWhile p = w.dropWhile p ++ c :: r := by
  induction w with
  | nil => simp [hc]
  | cons d w ih =>
      rw [List.cons_append]
      by_cases hd : p d = true
      · rw [List.dropWhile_cons_of_pos hd, List.dropWhile_cons_of_pos hd, ih]
      · rw [List.dropWhile_cons_of_neg hd, List.dropWhile_cons_of_neg hd, List.cons_append]

end

/-- What ends a run of characters ends it whatever follows. -/
theorem span_append {p : Char → Bool} {w : Text} (h : w.dropWhile p ≠ []) (r : Text) :
    (w ++ r).takeWhile p = w.takeWhile p ∧ (w ++ r).dropWhile p = w.dropWhile p ++ r := by
  induction w with
  | nil => exact absurd rfl h
  | cons c w ih =>
      by_cases hc : p c = true
      · rw [List.dropWhile_cons_of_pos hc] at h
        simp [hc, ih h]
      · simp [hc]

/-! ### Runs of blanks -/

/-- A run of blanks becomes one space. -/
def gapAt? : Respeller := fun _ ahead =>
  if (ahead.takeWhile isBlank).isEmpty then none
  else some ([' '], (ahead.takeWhile isBlank).length)

/-- A whole run of blanks is found at its first one. Behind the run there must
be no blank, or it would go on. -/
theorem gapAt?_append {gap rest : Text} (hgap : blank gap = true) (hne : gap ≠ [])
    (hrest : ∀ c ∈ rest.head?, isBlank c = false) (b : Text) :
    gapAt? b (gap ++ rest) = some ([' '], gap.length) := by
  have htake : (gap ++ rest).takeWhile isBlank = gap := by
    rw [List.takeWhile_append_of_pos (blank_iff.mp hgap)]
    cases rest <;> simp_all
  simp [gapAt?, htake, hne]

/-- A run of blanks and a space are two spellings. Neither has a mark in it,
and a mark ends the run whatever follows. -/
theorem isRespelling_gapAt? : IsRespelling (· == ' ') gapAt? where
  found := by
    intro b t out n h
    -- A gap holds blanks only, and no blank is a mark.
    have hblank : ∀ c ∈ t.takeWhile isBlank, isBlank c = true :=
      fun c hc => List.all_eq_true.mp List.all_takeWhile c hc
    have hfree : FreeOf allMarks (t.takeWhile isBlank) := freeOf_of_forall (by decide) hblank
    unfold gapAt? at h
    split at h
    · cases h
    · rename_i hne
      cases h
      refine ⟨[], t.takeWhile isBlank, [' '], t.dropWhile isBlank, ?_, rfl, rfl, freeOf_nil _, ?_⟩
      · simp
      · refine ⟨by simpa using hne, by simp, freeOf_structureMarks hfree, by decide, by simp, by decide, ?_⟩
        intro d
        rw [foldl_bracketDepth hfree, foldl_bracketDepth (by decide)]
  right := by
    intro b w c r hw hc
    have hblank : isBlank c = false := by
      simpa using of_mem_literalMarks (p := fun c => !isBlank c) (by decide) hc
    rw [gapAt?, gapAt?, takeWhile_append_mark hblank]
  left := fun _ _ => rfl

/-- No run begins inside a word, so the word is passed over. -/
theorem respellFrom_gapAt? {word : Text} (hword : ∀ c ∈ word, isBlank c = false) (b rest : Text) :
    respellFrom gapAt? b (word ++ rest) = word ++ respellFrom gapAt? (word.reverse ++ b) rest :=
  respellFrom_append_of_none (fun c hc b r => by simp [gapAt?, hword c hc]) b rest

/-- Collapsing is a respelling of trimmed texts. -/
theorem collapse_eq_respell {t : Text} (h : HasEnds t) : collapse t = respell gapAt? t := by
  have hfrom : ∀ b, collapse t = respellFrom gapAt? b t := by
    induction hn : t.length using Nat.strongRecOn generalizing t with
    | ind n ih =>
        intro b
        rcases exists_word_gap h with
          hword | ⟨word, gap, rest, hword, hgap, hne, hends, -, rfl, hcollapse⟩
        · have hall := respellFrom_gapAt? hword b []
          rw [List.append_nil, respellFrom_nil, List.append_nil] at hall
          rw [hall, (IsCollapsed.of_not_blank hword).collapse_eq]
        · have hlength := List.length_pos_iff.mpr hne
          have hshorter : rest.length < n := by
            rw [← hn]
            simp only [List.length_append]
            omega
          rw [hcollapse, respellFrom_gapAt? hword,
            respellFrom_found (gapAt?_append hgap hne hends.head _) hne,
            ← ih rest.length hshorter hends rfl]
          rfl
  exact hfrom []

/-- Collapsing a text of closed literals collapses its pieces. Literals are
collapsed on their own, since no run of blanks reaches over a quote. -/
theorem rowRespelled_collapse {t : Text} (h : HasEnds t) (hclosed : ∀ p ∈ pieces t, p.closed = true) :
    RowRespelled (· == ' ') (respell gapAt?) (pieces t) (pieces (collapse t)) := by
  rw [collapse_eq_respell h]
  exact isRespelling_gapAt?.rowRespelled_pieces hclosed []

/-! ### Letters -/

/-- Letters are read whatever follows them. -/
theorem Text.afterLetters?_append {front w rest : Text} (h : afterLetters? front w = some rest)
    (r : Text) : afterLetters? front (w ++ r) = some (rest ++ r) := by
  fun_induction afterLetters? front w with
  | case1 w =>
      cases h
      simp [afterLetters?]
  | case2 f fs => cases h
  | case3 f fs d w hd ih => simp [afterLetters?, hd, ih h]
  | case4 f fs d w hd => cases h

/-- The letters that were read are a word that has these letters in lower case. -/
theorem Text.exists_of_afterLetters? {front t rest : Text} (h : afterLetters? front t = some rest) :
    ∃ word, t = word ++ rest ∧ word.map Char.toLower = front := by
  fun_induction afterLetters? front t with
  | case1 t =>
      cases h
      exact ⟨[], rfl, rfl⟩
  | case2 f fs => cases h
  | case3 f fs d t hd ih =>
      obtain ⟨word, rfl, rfl⟩ := ih h
      exact ⟨d :: word, rfl, by simpa using hd⟩
  | case4 f fs d t hd => cases h

/-- What the letters of a word are not, the word is free of. -/
theorem freeOf_of_map_toLower {front word marks : Text} (hword : word.map Char.toLower = front)
    (h : marks.any (fun m => front.elem m.toLower) = false) : FreeOf marks word := by
  refine freeOf_of_forall h fun c hc => List.elem_eq_true_of_mem ?_
  rw [← hword]
  exact List.mem_map_of_mem hc

namespace Value

/-! ### Colours -/

/-- A channel: blanks, digits, blanks and a mark. -/
theorem exists_of_takeChannel? {mark : Char} {t digits rest : Text}
    (h : takeChannel? mark t = some (digits, rest)) :
    ∃ front back, t = front ++ (digits ++ (back ++ mark :: rest)) ∧ blank front = true
      ∧ blank back = true ∧ ∀ c ∈ digits, isDigit c = true := by
  unfold takeChannel? at h
  dsimp only at h
  split at h
  · cases h
  · rename_i c rest' hrest
    split at h
    · rename_i hc
      cases h
      refine ⟨t.takeWhile isBlank, ((t.dropWhile isBlank).dropWhile isDigit).takeWhile isBlank, ?_,
        List.all_takeWhile, List.all_takeWhile, fun d hd => List.all_eq_true.mp List.all_takeWhile d hd⟩
      rw [← hc.1, ← hrest, List.takeWhile_append_dropWhile, List.takeWhile_append_dropWhile,
        List.takeWhile_append_dropWhile]
    · cases h

/-- A channel that is cut off by another mark is not read, whatever follows.
The mark must be none of the characters that a channel has in it. -/
theorem takeChannel?_append_mark {mark c : Char} (hblank : isBlank c = false)
    (hdigit : isDigit c = false) (hmark : c ≠ mark) (w r : Text) :
    takeChannel? mark (w ++ c :: r)
      = (takeChannel? mark w).map fun found => (found.1, found.2 ++ c :: r) := by
  simp only [takeChannel?, dropWhile_append_mark hblank, dropWhile_append_mark hdigit,
    takeWhile_append_mark hdigit]
  cases ((w.dropWhile isBlank).dropWhile isDigit).dropWhile isBlank with
  | nil => simp [hmark]
  | cons d rest =>
      simp only [List.cons_append]
      split <;> rfl

/-- A channel is read whatever follows its mark. -/
theorem takeChannel?_append {mark : Char} {w digits rest : Text}
    (h : takeChannel? mark w = some (digits, rest)) (r : Text) :
    takeChannel? mark (w ++ r) = some (digits, rest ++ r) := by
  unfold takeChannel? at h ⊢
  dsimp only at h ⊢
  split at h
  · cases h
  · rename_i c rest' hrest
    -- The mark at the end of the channel is found, so none of the three stretches before it
    -- goes to the end of the text.
    have hback : ((w.dropWhile isBlank).dropWhile isDigit).dropWhile isBlank ≠ [] := by simp [hrest]
    have hdigits : (w.dropWhile isBlank).dropWhile isDigit ≠ [] := by
      intro hnil
      simp [hnil] at hback
    have hfront : w.dropWhile isBlank ≠ [] := by
      intro hnil
      simp [hnil] at hdigits
    rw [(span_append hfront r).2, (span_append hdigits r).1, (span_append hdigits r).2,
      (span_append hback r).2, hrest, List.cons_append]
    simp only
    split at h
    · rename_i hc
      cases h
      rw [if_pos hc]
    · cases h

/-- A colour is the letters and three channels, each read where the one before
it ended. -/
theorem takeRgb?_eq_some {t rest : Text} {channels : List Text} :
    takeRgb? t = some (channels, rest) ↔ ∃ t₁ t₂ t₃ red green blue,
      afterLetters? "rgb(".toList t = some t₁ ∧ takeChannel? ',' t₁ = some (red, t₂)
        ∧ takeChannel? ',' t₂ = some (green, t₃) ∧ takeChannel? ')' t₃ = some (blue, rest)
        ∧ channels = [red, green, blue] := by
  constructor
  · intro h
    unfold takeRgb? at h
    split at h
    · cases h
    · rename_i t₁ h₁
      split at h
      · cases h
      · rename_i red t₂ h₂
        split at h
        · cases h
        · rename_i green t₃ h₃
          split at h
          · cases h
          · rename_i blue rest h₄
            cases h
            exact ⟨t₁, t₂, t₃, red, green, blue, h₁, h₂, h₃, h₄, rfl⟩
  · rintro ⟨t₁, t₂, t₃, red, green, blue, h₁, h₂, h₃, h₄, rfl⟩
    simp only [takeRgb?, h₁, h₂, h₃, h₄]

/-- Characters at which a colour cannot go on. -/
def stopsColor (c : Char) : Bool :=
  !isBlank c && !isDigit c && c != ',' && c != ')' && decide (c.toLower ∉ "rgb(".toList)

/-- A colour does not go on over a character that stops it. -/
theorem takeRgb?_append_mark {c : Char} (hc : stopsColor c = true) (w r : Text) :
    takeRgb? (w ++ c :: r) = (takeRgb? w).map fun found => (found.1, found.2 ++ c :: r) := by
  simp only [stopsColor, Bool.and_eq_true, Bool.not_eq_true', bne_iff_ne, decide_eq_true_eq] at hc
  obtain ⟨⟨⟨⟨hblank, hdigit⟩, hcomma⟩, hclose⟩, hletters⟩ := hc
  unfold takeRgb?
  rw [afterLetters?_append_mark hletters]
  -- The steps are taken one by one: where one fails the whole fails, and the character that is
  -- added is taken by none of them.
  cases afterLetters? "rgb(".toList w with
  | none => rfl
  | some t₁ =>
      simp only [Option.map_some]
      rw [takeChannel?_append_mark hblank hdigit hcomma]
      cases takeChannel? ',' t₁ with
      | none => rfl
      | some red =>
          simp only [Option.map_some]
          rw [takeChannel?_append_mark hblank hdigit hcomma]
          cases takeChannel? ',' red.2 with
          | none => rfl
          | some green =>
              simp only [Option.map_some]
              rw [takeChannel?_append_mark hblank hdigit hclose]
              cases takeChannel? ')' green.2 <;> rfl

/-- A colour is read whatever follows it. -/
theorem takeRgb?_append {w rest : Text} {channels : List Text}
    (h : takeRgb? w = some (channels, rest)) (r : Text) :
    takeRgb? (w ++ r) = some (channels, rest ++ r) := by
  obtain ⟨t₁, t₂, t₃, red, green, blue, h₁, h₂, h₃, h₄, rfl⟩ := takeRgb?_eq_some.mp h
  exact takeRgb?_eq_some.mpr ⟨t₁ ++ r, t₂ ++ r, t₃ ++ r, red, green, blue,
    afterLetters?_append h₁ r, takeChannel?_append h₂ r, takeChannel?_append h₃ r,
    takeChannel?_append h₄ r, rfl⟩

/-- What is read as a colour is letters, and then three channels in
parentheses. -/
theorem exists_of_takeRgb? {t rest : Text} {channels : List Text}
    (h : takeRgb? t = some (channels, rest)) :
    ∃ letters inside, t = letters ++ '(' :: (inside ++ ')' :: rest) ∧ FreeOf allMarks letters
      ∧ FreeOf allMarks inside := by
  obtain ⟨t₁, t₂, t₃, red, green, blue, h₁, h₂, h₃, h₄, -⟩ := takeRgb?_eq_some.mp h
  obtain ⟨word, rfl, hword⟩ := exists_of_afterLetters? h₁
  obtain ⟨f₁, b₁, rfl, hf₁, hb₁, hred⟩ := exists_of_takeChannel? h₂
  obtain ⟨f₂, b₂, rfl, hf₂, hb₂, hgreen⟩ := exists_of_takeChannel? h₃
  obtain ⟨f₃, b₃, rfl, hf₃, hb₃, hblue⟩ := exists_of_takeChannel? h₄
  -- The word is compared without regard to case, and its last character has no other case.
  obtain ⟨letters, c, rfl⟩ : ∃ letters c, word = letters ++ [c] := by
    have hne : word ≠ [] := by
      rintro rfl
      cases hword
    exact ⟨word.dropLast, word.getLast hne, (List.dropLast_append_getLast hne).symm⟩
  have hsplit : letters.map Char.toLower ++ [c.toLower] = "rgb".toList ++ ['('] := by
    rw [← List.map_singleton, ← List.map_append, hword]
    decide
  obtain ⟨hletters, hparen⟩ := List.append_inj' hsplit rfl
  obtain rfl : c = '(' := eq_of_toLower_eq (by decide) (List.cons.inj hparen).1
  have hblank : ∀ {gap : Text}, blank gap = true → FreeOf allMarks gap :=
    fun h => freeOf_of_forall (by decide) (blank_iff.mp h)
  have hdigits : ∀ {digits : Text}, (∀ c ∈ digits, isDigit c = true) → FreeOf allMarks digits :=
    fun h => freeOf_of_forall (by decide) h
  refine ⟨letters, f₁ ++ (red ++ (b₁ ++ ',' :: (f₂ ++ (green ++ (b₂ ++ ',' :: (f₃ ++ (blue ++ b₃)))))))
    , by simp, freeOf_of_map_toLower hletters (by decide), ?_⟩
  simp only [freeOf_append, freeOf_cons]
  exact ⟨hblank hf₁, hdigits hred, hblank hb₁, by decide, hblank hf₂, hdigits hgreen, hblank hb₂,
    by decide, hblank hf₃, hdigits hblue, hblank hb₃⟩

/-- The digits of hexadecimal numbers. -/
def hexDigits : List Char := "0123456789abcdef".toList

/-- Sixteen digits are enough for numbers in base sixteen. -/
theorem digitChar_mem : ∀ n ∈ List.range 16, Nat.digitChar n ∈ hexDigits := by decide

/-- A channel in hexadecimal has at least one digit. -/
theorem mem_of_hexChannel? {digits hex : Text} (h : hexChannel? digits = some hex) :
    hex ≠ [] ∧ ∀ c ∈ hex, c ∈ hexDigits := by
  unfold hexChannel? at h
  dsimp only at h
  split at h
  · rename_i hle
    cases h
    refine ⟨by simp, List.forall_mem_cons.mpr ⟨?_, List.forall_mem_singleton.mpr ?_⟩⟩
    · exact digitChar_mem _ (List.mem_range.mpr (by omega))
    · exact digitChar_mem _ (List.mem_range.mpr (Nat.mod_lt _ (by decide)))
  · cases h

/-- A colour in hexadecimal is a number sign and digits. -/
theorem exists_of_hexColor? {red green blue hex : Text} (h : hexColor? [red, green, blue] = some hex) :
    ∃ digits, hex = '#' :: digits ∧ digits ≠ [] ∧ ∀ c ∈ digits, c ∈ hexDigits := by
  simp only [hexColor?, List.mapM_cons, List.mapM_nil, Option.map_eq_some_iff] at h
  obtain ⟨parts, hparts, rfl⟩ := h
  obtain ⟨r, hr, hparts⟩ := Option.bind_eq_some_iff.mp hparts
  obtain ⟨others, hothers, hparts⟩ := Option.bind_eq_some_iff.mp hparts
  obtain ⟨g, hg, hothers⟩ := Option.bind_eq_some_iff.mp hothers
  obtain ⟨others', hothers', hothers⟩ := Option.bind_eq_some_iff.mp hothers
  obtain ⟨b, hb, hothers'⟩ := Option.bind_eq_some_iff.mp hothers'
  cases hparts
  cases hothers
  cases hothers'
  obtain ⟨hrne, hrmem⟩ := mem_of_hexChannel? hr
  refine ⟨r ++ (g ++ b), by simp, by simp [hrne], ?_⟩
  simp only [List.forall_mem_append]
  exact ⟨hrmem, (mem_of_hexChannel? hg).2, (mem_of_hexChannel? hb).2⟩

/-- Characters that are no reason to tighten a text: neither blanks nor
commas. -/
def isSolid (c : Char) : Bool := !isBlank c && c != ','

/-- A colour is found where a word may begin, and all three of its channels can
be written in hexadecimal. -/
theorem colorAt?_eq_some {b t hex : Text} {n : Nat} :
    colorAt? b t = some (hex, n) ↔ endsWord b = true ∧ ∃ red green blue rest,
      takeRgb? t = some ([red, green, blue], rest) ∧ hexColor? [red, green, blue] = some hex
        ∧ n = t.length - rest.length := by
  constructor
  · intro h
    unfold colorAt? at h
    split at h
    · cases h
    · rename_i hword
      split at h
      · cases h
      · rename_i channels rest hrgb
        obtain ⟨hex', hhex, hpair⟩ := Option.map_eq_some_iff.mp h
        cases hpair
        obtain ⟨-, -, -, red, green, blue, -, -, -, -, rfl⟩ := takeRgb?_eq_some.mp hrgb
        exact ⟨by simpa using hword, red, green, blue, rest, hrgb, hhex, rfl⟩
  · rintro ⟨hword, red, green, blue, rest, hrgb, hhex, rfl⟩
    simp [colorAt?, hword, hrgb, hhex]

/-- Both spellings of a colour leave as many brackets open. -/
theorem isSpelling_color {letters inside digits : Text} (hletters : FreeOf allMarks letters)
    (hinside : FreeOf allMarks inside) (hdigits : ∀ c ∈ digits, c ∈ hexDigits) :
    IsSpelling isSolid (letters ++ '(' :: (inside ++ [')'])) ('#' :: digits) := by
  have hhex : ∀ {p : Char → Bool}, hexDigits.all p = true → ∀ c ∈ digits, p c = true :=
    fun h c hc => List.all_eq_true.mp h c (hdigits c hc)
  have hfree : FreeOf allMarks ('#' :: digits) := by
    refine freeOf_cons.mpr ⟨by decide, fun c hc => ?_⟩
    simpa using hhex (p := fun c => decide (c ∉ allMarks)) (by decide) c hc
  refine ⟨by simp, by simp, ?_, freeOf_structureMarks hfree, ?_, ?_, fun d => ?_⟩
  · simp only [freeOf_append, freeOf_cons]
    exact ⟨freeOf_structureMarks hletters, by decide, freeOf_structureMarks hinside, by decide,
      freeOf_nil _⟩
  · exact List.forall_mem_cons.mpr ⟨by decide, hhex (by decide)⟩
  · intro hmem
    rcases List.mem_cons.mp hmem with hline | hline
    · cases hline
    · simpa using hhex (p := (· != '\n')) (by decide) _ hline
  · rw [foldl_bracketDepth hfree, List.foldl_append, foldl_bracketDepth hletters, List.foldl_cons,
      List.foldl_append, foldl_bracketDepth hinside]
    rfl

/-- Both spellings of a colour begin and end no literal, and what stops a
colour stops it whatever follows. -/
theorem isRespelling_colorAt? : IsRespelling isSolid colorAt? where
  found := by
    intro b t out n h
    obtain ⟨-, red, green, blue, rest, hrgb, hhex, rfl⟩ := colorAt?_eq_some.mp h
    obtain ⟨digits, rfl, -, hdigits⟩ := exists_of_hexColor? hhex
    obtain ⟨letters, inside, rfl, hletters, hinside⟩ := exists_of_takeRgb? hrgb
    refine ⟨[], _, _, rest, ?_, rfl, ?_, freeOf_nil _, isSpelling_color hletters hinside hdigits⟩
    · simp
    · simp only [List.nil_append, List.length_append, List.length_cons, List.length_nil]
      omega
  right := by
    intro b w c r hw hc
    have hstop : stopsColor c = true := of_mem_literalMarks (by decide) hc
    unfold colorAt?
    rw [takeRgb?_append_mark hstop]
    cases takeRgb? w with
    | none => rfl
    | some found => simp only [Option.map_some, List.length_append, Nat.add_sub_add_right]
  left := by
    intro b b' t h
    -- Of what is before, only the last character is looked at.
    have hword : endsWord b = endsWord b' := by
      cases b <;> cases b' <;> simp_all [endsWord]
    rw [colorAt?, colorAt?, hword]

/-! ### Colours are written once -/

/-- Up to the first new spelling a text is as it was. -/
theorem exists_of_respelled {b t u : Text} (h : Respelled isSolid colorAt? b t u) :
    u = t ∨ ∃ front r v, t = front ++ r ∧ u = front ++ '#' :: v := by
  induction h with
  | nil b => exact .inl rfl
  | @keep b c r u hnone hr ih =>
      rcases ih with rfl | ⟨front, r', v, rfl, rfl⟩
      · exact .inl rfl
      · exact .inr ⟨c :: front, r', v, rfl, rfl⟩
  | @found b kept x y r u hfound hkept hxy hr ih =>
      obtain ⟨-, red, green, blue, rest, -, hhex, -⟩ := colorAt?_eq_some.mp hfound
      obtain ⟨digits, heq, -, -⟩ := exists_of_hexColor? hhex
      refine .inr ⟨[], kept ++ (x ++ r), digits ++ u, rfl, ?_⟩
      rw [← List.append_assoc, heq]
      rfl

/-- No colour begins with a character that is no letter of it. -/
theorem colorAt?_eq_none {c : Char} (hc : c.toLower ≠ 'r') (b r : Text) :
    colorAt? b (c :: r) = none := by
  have hrgb : takeRgb? (c :: r) = none := by
    have hletters : afterLetters? "rgb(".toList (c :: r) = none := by
      show (if (c.toLower == 'r') = true then afterLetters? "gb(".toList r else none) = none
      simp [hc]
    rw [takeRgb?, hletters]
  simp [colorAt?, hrgb]

/-- In the new spelling of a text nothing is found. A place may have
another character before it than in the text, if words go on there. -/
theorem respellFrom_respelled {b t u : Text} (h : Respelled isSolid colorAt? b t u) :
    ∀ b', (endsWord b' = true → endsWord b = true) → respellFrom colorAt? b' u = u := by
  induction h with
  | nil b => exact fun b' _ => rfl
  | @keep b c r u hnone hr ih =>
      intro b' hb
      have hnone' : colorAt? b' (c :: u) = none := by
        refine Option.eq_none_iff_forall_ne_some.mpr fun found hfound => ?_
        obtain ⟨hword, red, green, blue, rest, hrgb, hhex, -⟩ := colorAt?_eq_some.mp hfound
        -- The colour would have been in the text already.
        have hold : ∃ rest', takeRgb? (c :: r) = some ([red, green, blue], rest') := by
          rcases exists_of_respelled hr with rfl | ⟨front, r', v, rfl, rfl⟩
          · exact ⟨rest, hrgb⟩
          · rw [← List.cons_append, takeRgb?_append_mark (by decide)] at hrgb
            obtain ⟨⟨channels, rest'⟩, hfront, hpair⟩ := Option.map_eq_some_iff.mp hrgb
            cases hpair
            exact ⟨rest' ++ r', takeRgb?_append hfront r'⟩
        obtain ⟨rest', hold⟩ := hold
        have hcolor := colorAt?_eq_some.mpr ⟨hb hword, red, green, blue, rest', hold, hhex, rfl⟩
        rw [hnone] at hcolor
        cases hcolor
      rw [respellFrom_cons hnone', ih (c :: b') id]
  | @found b kept x y r u hfound hkept hxy hr ih =>
      intro b' _
      obtain ⟨-, red, green, blue, rest, -, hhex, -⟩ := colorAt?_eq_some.mp hfound
      obtain ⟨digits, heq, hne, hdigits⟩ := exists_of_hexColor? hhex
      have hhexAll : ∀ {p : Char → Bool}, hexDigits.all p = true → ∀ c ∈ digits, p c = true :=
        fun h c hc => List.all_eq_true.mp h c (hdigits c hc)
      have hnone : ∀ c ∈ '#' :: digits, ∀ b r, colorAt? b (c :: r) = none := by
        refine List.forall_mem_cons.mpr ⟨colorAt?_eq_none (by decide), fun c hc => ?_⟩
        have hletter := hhexAll (p := fun c => c.toLower != 'r') (by decide) c hc
        exact colorAt?_eq_none (by simpa using hletter)
      -- Behind the last digit the word goes on.
      have hlast : endsWord (('#' :: digits).reverse ++ b') = false := by
        obtain ⟨front, d, rfl⟩ : ∃ front d, digits = front ++ [d] :=
          ⟨_, _, (List.dropLast_append_getLast hne).symm⟩
        have hd := hhexAll (p := isWordChar) (by decide) d (by simp)
        simp [endsWord, hd]
      rw [← List.append_assoc, heq, respellFrom_append_of_none hnone, ih]
      rw [hlast]
      intro h
      cases h

/-- Writing colours in hexadecimal leaves nothing to be written so. This needs
a proof: the number sign might bring a word and a colour behind it apart. -/
theorem hexColors_hexColors (t : Text) : hexColors (hexColors t) = hexColors t :=
  respellFrom_respelled (isRespelling_colorAt?.respelled [] t) [] id

/-! ### Lengths of zero -/

/-- The text behind a sign, if there is one. -/
def afterSign : Text → Text
  | '-' :: r => r
  | r => r

/-- The text behind zeros of a fraction, if there are some. -/
def afterFraction : Text → Text
  | '.' :: '0' :: r => r.dropWhile (· == '0')
  | r => r

/-- What is read as a zero, step by step: a sign, a zero, a fraction of zeros,
and a unit. -/
theorem takeZero?_eq (t : Text) : takeZero? t = match afterSign t with
    | '0' :: r => match units.findSome? (afterLetters? · (afterFraction r)) with
      | some rest => if endsWord rest then some rest else none
      | none => none
    | _ => none := rfl

/-- The same as an equivalence, with the unit found among those that there are. -/
theorem takeZero?_eq_some {t rest : Text} : takeZero? t = some rest ↔
    ∃ r, afterSign t = '0' :: r ∧ endsWord rest = true
      ∧ units.findSome? (afterLetters? · (afterFraction r)) = some rest := by
  rw [takeZero?_eq]
  constructor
  · intro h
    split at h
    · rename_i r hr
      split at h
      · rename_i rest' hrest
        split at h
        · rename_i hword
          cases h
          exact ⟨r, hr, hword, hrest⟩
        · cases h
      · cases h
    · cases h
  · rintro ⟨r, hr, hword, hrest⟩
    simp only [hr, hrest, hword, if_true]

/-- A sign is no mark. -/
theorem exists_of_afterSign (t : Text) : ∃ sign, t = sign ++ afterSign t ∧ FreeOf allMarks sign := by
  fun_cases afterSign t with
  | case1 r => exact ⟨['-'], rfl, by decide⟩
  | case2 => exact ⟨[], rfl, freeOf_nil _⟩

/-- A fraction of zeros has no marks in it. -/
theorem exists_of_afterFraction (t : Text) :
    ∃ zeros, t = zeros ++ afterFraction t ∧ FreeOf allMarks zeros := by
  fun_cases afterFraction t with
  | case1 r =>
      refine ⟨'.' :: '0' :: r.takeWhile (· == '0'), by simp, ?_⟩
      refine freeOf_cons.mpr ⟨by decide, freeOf_cons.mpr ⟨by decide, ?_⟩⟩
      exact freeOf_of_forall (by decide) fun c hc => List.all_eq_true.mp List.all_takeWhile c hc
  | case2 => exact ⟨[], rfl, freeOf_nil _⟩

/-- What is read as a zero with its unit has no marks in it. -/
theorem exists_of_takeZero? {t rest : Text} (h : takeZero? t = some rest) :
    ∃ x, t = x ++ rest ∧ x ≠ [] ∧ FreeOf allMarks x := by
  obtain ⟨r, hsign, -, hunit⟩ := takeZero?_eq_some.mp h
  obtain ⟨unit, hmem, hletters⟩ := List.exists_of_findSome?_eq_some hunit
  obtain ⟨word, hword, hlower⟩ := exists_of_afterLetters? hletters
  obtain ⟨sign, ht, hsignFree⟩ := exists_of_afterSign t
  obtain ⟨zeros, hr, hzeros⟩ := exists_of_afterFraction r
  refine ⟨sign ++ '0' :: (zeros ++ word), ?_, by simp, ?_⟩
  · rw [ht, hsign, hr, hword]
    simp
  · have hunits : units.all (fun u => !allMarks.any fun m => u.elem m.toLower) = true := by decide
    have hunitFree := List.all_eq_true.mp hunits unit hmem
    refine freeOf_append.mpr ⟨hsignFree, freeOf_cons.mpr ⟨by decide, freeOf_append.mpr ⟨hzeros, ?_⟩⟩⟩
    exact freeOf_of_map_toLower hlower (by simpa using hunitFree)

/-- Characters at which a zero with its unit cannot go on, and a unit can
end. -/
def stopsZero (c : Char) : Bool :=
  c != '-' && c != '0' && c != '.' && !isWordChar c && units.all fun u => decide (c.toLower ∉ u)

section

variable {c : Char}

/-- A character that is no sign makes no sign. -/
theorem afterSign_append_mark (hc : c ≠ '-') (w r : Text) :
    afterSign (w ++ c :: r) = afterSign w ++ c :: r := by
  cases w with
  | nil => simp [afterSign, hc]
  | cons d w =>
      by_cases hd : d = '-'
      · simp [afterSign, hd]
      · simp [afterSign, hd]

/-- A character that is neither a dot nor a zero does not lengthen a fraction. -/
theorem afterFraction_append_mark (hdot : c ≠ '.') (hzero : c ≠ '0') (w r : Text) :
    afterFraction (w ++ c :: r) = afterFraction w ++ c :: r := by
  match w with
  | [] => simp [afterFraction, hdot]
  | [d] =>
      by_cases hd : d = '.'
      · simp [afterFraction, hd, hzero]
      · simp [afterFraction, hd]
  | d :: e :: w =>
      by_cases hd : d = '.'
      · by_cases he : e = '0'
        · subst hd he
          exact dropWhile_append_mark (p := (· == '0')) (by simpa using hzero) w r
        · simp [afterFraction, he]
      · simp [afterFraction, hd]

/-- A character that is in none of the words makes none of them longer. -/
theorem findSome?_append_mark {words : List Text} (hc : ∀ u ∈ words, c.toLower ∉ u) (w r : Text) :
    words.findSome? (afterLetters? · (w ++ c :: r))
      = (words.findSome? (afterLetters? · w)).map (· ++ c :: r) := by
  induction words with
  | nil => rfl
  | cons u words ih =>
      obtain ⟨hu, hwords⟩ := List.forall_mem_cons.mp hc
      rw [List.findSome?_cons, List.findSome?_cons, afterLetters?_append_mark hu, ih hwords]
      cases afterLetters? u w <;> rfl

/-- A zero with its unit does not go on over a character that stops it. -/
theorem takeZero?_append_mark (hc : stopsZero c = true) (w r : Text) :
    takeZero? (w ++ c :: r) = (takeZero? w).map (· ++ c :: r) := by
  simp only [stopsZero, Bool.and_eq_true, bne_iff_ne, Bool.not_eq_true', List.all_eq_true,
    decide_eq_true_eq] at hc
  obtain ⟨⟨⟨⟨hsign, hzero⟩, hdot⟩, hword⟩, hunits⟩ := hc
  -- The character that is added ends a word, just as the end of the text does.
  have hends : ∀ rest : Text, endsWord (rest ++ c :: r) = endsWord rest := by
    intro rest
    cases rest with
    | nil => simp [endsWord, hword]
    | cons d rest => rfl
  rw [takeZero?_eq, takeZero?_eq, afterSign_append_mark hsign]
  cases afterSign w with
  | nil => simp [hzero]
  | cons d number =>
      by_cases hd : d = '0'
      · subst hd
        simp only [List.cons_append]
        rw [afterFraction_append_mark hdot hzero, findSome?_append_mark hunits]
        cases units.findSome? (afterLetters? · (afterFraction number)) with
        | none => rfl
        | some rest =>
            simp only [Option.map_some, hends]
            split <;> rfl
      · simp [hd]

end

/-- A zero with its unit and a zero alone leave as many brackets open. -/
theorem isSpelling_zero {x : Text} (hne : x ≠ []) (hx : FreeOf allMarks x) :
    IsSpelling isSolid x ['0'] := by
  have hzero : ∀ c ∈ ['0'], isSolid c = true := List.forall_mem_singleton.mpr (by decide)
  refine ⟨hne, by simp, freeOf_structureMarks hx, by decide, hzero, by decide, fun d => ?_⟩
  rw [foldl_bracketDepth hx, foldl_bracketDepth (by decide)]

/-- What is found is a zero, perhaps with the character before it. -/
theorem zeroAt?_eq_some {b t out : Text} {n : Nat} (h : zeroAt? b t = some (out, n)) :
    ∃ kept x rest, t = kept ++ (x ++ rest) ∧ out = kept ++ ['0'] ∧ n = (kept ++ x).length
      ∧ FreeOf structureMarks kept ∧ x ≠ [] ∧ FreeOf allMarks x := by
  -- A zero begins the text, or it stands behind a character that is kept.
  unfold zeroAt? at h
  split at h
  · rename_i rest hrest
    cases h
    split at hrest
    · obtain ⟨x, rfl, hne, hx⟩ := exists_of_takeZero? hrest
      exact ⟨[], x, rest, rfl, rfl, by simp, freeOf_nil _, hne, hx⟩
    · cases hrest
  · split at h
    · cases h
    · rename_i c r _
      split at h
      · rename_i hc
        obtain ⟨rest, hrest, hpair⟩ := Option.map_eq_some_iff.mp h
        cases hpair
        obtain ⟨x, rfl, hne, hx⟩ := exists_of_takeZero? hrest
        refine ⟨[c], x, rest, rfl, rfl, ?_, ?_, hne, hx⟩
        · simp only [List.length_cons, List.length_append, List.length_nil]
          omega
        · exact freeOf_of_forall (p := fun c => isBlank c || c == ',' || c == '(') (by decide)
            (List.forall_mem_singleton.mpr hc)
      · cases h

/-- Both spellings of a zero begin and end no literal, and what stops one stops
it whatever follows. -/
theorem isRespelling_zeroAt? : IsRespelling isSolid zeroAt? where
  found := by
    intro b t out n h
    obtain ⟨kept, x, rest, rfl, rfl, rfl, hkept, hne, hx⟩ := zeroAt?_eq_some h
    exact ⟨kept, x, ['0'], rest, rfl, rfl, rfl, hkept, isSpelling_zero hne hx⟩
  right := by
    intro b w c r hw hc
    have hstop : stopsZero c = true := of_mem_literalMarks (by decide) hc
    obtain ⟨d, w, rfl⟩ := List.exists_cons_of_ne_nil hw
    have hfirst : (if b.isEmpty then takeZero? (d :: w ++ c :: r) else none)
        = (if b.isEmpty then takeZero? (d :: w) else none).map (· ++ c :: r) := by
      rw [takeZero?_append_mark hstop]
      split <;> rfl
    unfold zeroAt?
    rw [hfirst]
    cases if b.isEmpty then takeZero? (d :: w) else none with
    | some rest => simp only [Option.map_some, List.length_append, Nat.add_sub_add_right]
    | none =>
        simp only [Option.map_none, List.cons_append]
        rw [takeZero?_append_mark hstop]
        split
        · cases takeZero? w with
          | none => rfl
          | some rest =>
              simp only [Option.map_some, List.length_cons, List.length_append]
              refine congrArg (fun n => some ([d, '0'], n)) ?_
              omega
        · rfl
  left := by
    intro b b' t h
    -- Of what is before, only whether there is anything is looked at.
    have hempty : b.isEmpty = b'.isEmpty := by
      cases b <;> cases b' <;> simp_all
    unfold zeroAt?
    rw [hempty]

end Value

end Stylesheet
