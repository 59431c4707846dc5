import Stylesheet.Proofs.Literals
import Stylesheet.Proofs.Offsets
import Stylesheet.Proofs.Reading

/-!
# What a statement is taken for

`Node.ofSegment` decides what the text before a semicolon is: an import,
another at-statement, a declaration or any other statement. Here stand the
texts for which it decides as they were meant: the text of a declaration,
with or without blanks behind its colon, that of a statement, and that of
an import. Blanks in front are lost in each case.

An import is the longest of the three. Its keyword is found in letters of
either case; the first four bytes behind it are looked at, and must not
end inside a character; then comes a quoted target, and what follows the
quote is the media.
-/

set_option autoImplicit false

namespace Stylesheet

namespace Text

/-! ### Letters and bytes -/

/-- Only small letters have a capital. -/
theorem eq_of_toLower_eq {c m : Char} (hm : ¬ ('a' ≤ m ∧ m ≤ 'z')) (h : c.toLower = m) : c = m := by
  unfold Char.toLower at h
  split at h
  · rename_i hc
    have hval : c.val + 32 = m.val := congrArg Char.val h
    have hlow : (65 : UInt32) ≤ c.val := hc.1
    have hhigh : c.val ≤ (90 : UInt32) := hc.2
    refine absurd ⟨?_, ?_⟩ hm
    · show (97 : UInt32) ≤ m.val
      grind
    · show m.val ≤ (122 : UInt32)
      grind
  · exact h

/-- The sign that begins an import is no letter. -/
theorem toLower_eq_at {c : Char} (h : c.toLower = '@') : c = '@' := eq_of_toLower_eq (by decide) h

/-- What does not begin with this sign begins no import. -/
theorem beginsImport_eq_false {t : Text} (h : t.head? ≠ some '@') : beginsImport t = false := by
  cases t with
  | nil => rfl
  | cons c r =>
      have hc : c.toLower ≠ '@' := fun hlow => h (congrArg some (toLower_eq_at hlow))
      show (if (c.toLower == '@') = true then afterLetters? "import".toList r else none).isSome
        = false
      simp [hc]

/-- ASCII characters have one byte each. -/
theorem size_eq_length {t : Text} (h : ∀ c ∈ t, c.toNat < 128) : size t = t.length := by
  induction t with
  | nil => rfl
  | cons c r ih =>
      have hc : c.utf8Size = 1 := by
        rw [Char.utf8Size_eq_one_iff, UInt32.le_iff_toNat_le]
        exact Nat.le_of_lt_succ (h c List.mem_cons_self)
      rw [size_cons, hc, ih fun d hd => h d (List.mem_cons_of_mem _ hd), List.length_cons]
      omega

/-- Among ASCII characters every position is a place. -/
theorem isPlace_append {front : Text} (hfront : ∀ c ∈ front, c.toNat < 128) {offset : Nat}
    (h : offset ≤ front.length) (back : Text) : Node.isPlace offset (front ++ back) = true := by
  have hsize : size (front.take offset) = offset := by
    rw [size_eq_length fun c hc => hfront c (List.mem_of_mem_take hc), List.length_take]
    omega
  have hcut := splitAtByte_size (front.take offset) (front.drop offset ++ back)
  rw [hsize, ← List.append_assoc, List.take_append_drop] at hcut
  rw [Node.isPlace, hcut, hsize, beq_self_eq_true]

/-! ### Targets -/

/-- Nothing in a target ends the string that it is put in. -/
theorem IsTarget.stringBody {url : Text} (h : IsTarget url) : Literal.StringBody apostrophe url := by
  obtain ⟨-, hchars⟩ := h
  induction url with
  | nil => exact .nil
  | cons c url ih =>
      obtain ⟨-, hquote, hescape, hblank⟩ := hchars c List.mem_cons_self
      have hline : c ≠ '\n' := (ne_of_isBlank (by decide) hblank).symm
      have happ : c ≠ apostrophe := by
        rintro rfl
        cases hquote
      exact .char hescape hline happ (ih fun d hd => hchars d (List.mem_cons_of_mem _ hd))

/-- A target in quotes. -/
def quoted (url : Text) : Text := apostrophe :: (url ++ [apostrophe])

/-- A target in quotes is a closed string if no character of it ends the
string. -/
theorem isClosedString_quoted {url : Text} (h : Literal.StringBody apostrophe url) :
    Literal.IsClosedString (quoted url) :=
  ⟨apostrophe, url, rfl, rfl, h⟩

/-- It is one piece. -/
theorem pieces_quoted {url : Text} (h : Literal.StringBody apostrophe url) :
    pieces (quoted url) = [.string (quoted url)] := by
  have htake := (isClosedString_quoted h).take? []
  rw [List.append_nil] at htake
  rw [pieces_of_take? htake, pieces]

/-- What is dropped from both sides may be there or not. -/
theorem trimWhere_append {p : Char → Bool} {front back : Text} (hfront : ∀ c ∈ front, p c = true)
    (hback : ∀ c ∈ back, p c = true) (t : Text) :
    trimWhere p (front ++ (t ++ back)) = trimWhere p t := by
  unfold trimWhere
  rw [List.dropWhile_append_of_pos hfront, List.dropWhile_append]
  split
  · rename_i hnil
    rw [List.isEmpty_iff.mp hnil]
    have hall : back.dropWhile p = [] := by
      rw [List.dropWhile_eq_nil_iff]
      exact hback
    rw [hall]
  · rw [List.reverse_append, List.dropWhile_append_of_pos]
    exact fun c hc => hback c (List.mem_reverse.mp hc)

/-- Quotes that were put around a target are dropped again. -/
theorem unquote_quoted (url : Text) : unquote (quoted url) = unquote url := by
  have hquote : ∀ c ∈ [apostrophe], (isQuote c || isBlank c) = true :=
    List.forall_mem_singleton.mpr rfl
  exact trimWhere_append hquote hquote url

/-- A target has no quotes and blanks at its ends that could be dropped. -/
theorem unquote_target {url : Text} (h : IsTarget url) : unquote url = url := by
  have hkeep : ∀ c ∈ url, ¬ (isQuote c || isBlank c) = true := by
    intro c hc
    obtain ⟨-, hquote, -, hblank⟩ := h.2 c hc
    rw [hquote, hblank]
    decide
  have hdrop : ∀ {t : Text}, (∀ c ∈ t, ¬ (isQuote c || isBlank c) = true) →
      t.dropWhile (fun c => isQuote c || isBlank c) = t := by
    intro t ht
    cases t with
    | nil => rfl
    | cons c t =>
        exact List.dropWhile_cons_of_neg (p := fun c => isQuote c || isBlank c) (ht c List.mem_cons_self)
  rw [unquote, trimWhere, hdrop hkeep, hdrop fun c hc => hkeep c (List.mem_reverse.mp hc),
    List.reverse_reverse]

end Text

namespace Node

/-! ### Declarations and other statements -/

/-- What a segment is that is no import. -/
theorem ofSegment_eq {segment t : Text} (htrim : Text.trim segment = t) (hne : t ≠ [])
    (himport : Text.beginsImport t = false) :
    ofSegment segment
      = .ok (some (if t.head? = some '@' then .statement (Text.collapse t)
          else (splitTopOnce ':' t).elim (.statement t) fun found =>
            .declaration (Text.trim found.1) (Text.trim found.2))) := by
  have hnone : Text.afterLetters? "@import".toList t = none := by
    simpa [Text.beginsImport] using himport
  rw [ofSegment, htrim]
  cases t with
  | nil => exact absurd rfl hne
  | cons c r =>
      simp only [hnone, List.head?_cons, Option.some.injEq]
      split
      · rfl
      · cases splitTopOnce ':' (c :: r) <;> rfl

/-- A trimmed text is the statement that it is. -/
theorem ofSegment_statement {t : Text} (hends : Text.HasEnds t) (hne : t ≠ [])
    (himport : Text.beginsImport t = false) (hat : t.head? = some '@' → Text.collapse t = t)
    (hcolon : t.head? ≠ some '@' → hasTop ':' 0 (pieces t) = false)
    {gap : Text} (hgap : Text.blank gap = true) :
    ofSegment (gap ++ t) = .ok (some (.statement t)) := by
  rw [ofSegment_eq (Text.trim_behind hends hgap) hne himport]
  split
  · rename_i hhead
    rw [hat hhead]
  · rename_i hhead
    rw [splitTopOnce_eq_none (hcolon hhead)]
    rfl

/-- What stands before the first colon is the name, what stands behind
it the value. -/
theorem ofSegment_declaration {name value : Text} (hname : Text.HasEnds name)
    (hvalue : Text.HasEnds value) (hat : name.head? ≠ some '@')
    (hclosed : ∀ p ∈ pieces name, p.closed = true) (htop : hasTop ':' 0 (pieces name) = false)
    (hdepth : depthBehind 0 (pieces name) = 0) {front gap : Text}
    (hfront : Text.blank front = true) (hgap : Text.blank gap = true) :
    ofSegment (front ++ (name ++ ':' :: (gap ++ value)))
      = .ok (some (.declaration name value)) := by
  have hends : Text.HasEnds (name ++ [':']) := hname.concat (by decide)
  -- Behind the colon trimming leaves the value, or nothing if there is no value.
  obtain ⟨behind, htrim, hbehind⟩ : ∃ behind,
      Text.trim (front ++ (name ++ ':' :: (gap ++ value))) = name ++ ':' :: behind
        ∧ Text.trim behind = value := by
    by_cases hne : value = []
    · refine ⟨[], ?_, ?_⟩
      · simpa [hne] using Text.trim_gap hends hfront hgap
      · rw [hne]
        rfl
    · refine ⟨gap ++ value, ?_, ?_⟩
      · simpa using Text.trim_behind (hends.append hvalue (by simp) hne gap) hfront
      · exact Text.trim_behind hvalue hgap
  have hhead : (name ++ ':' :: behind).head? ≠ some '@' := by
    cases name with
    | nil => simp
    | cons c name => exact hat
  have hsplit : splitTopOnce ':' (name ++ ':' :: behind) = some (name, behind) := by
    have hpieces := pieces_append_cons hclosed (c := ':') (by decide) (by decide) (by decide) behind
    rw [splitTopOnce_eq_some hpieces htop hdepth, text_pieces]
  rw [ofSegment_eq htrim (by simp) (Text.beginsImport_eq_false hhead), if_neg hhead, hsplit]
  rw [Option.elim_some, Text.trim_eq_self hname, hbehind]

/-! ### Imports -/

/-- What stands behind the target of an import. -/
def mediaTail (media : Text) : Text := if media.isEmpty then [] else ' ' :: media

/-- The keyword begins with the sign of statements, for rewriting. -/
theorem keyword_eq : "@import".toList = '@' :: "import".toList := by decide +kernel

/-- What is written for an import, in its parts. -/
theorem renderImport_eq (url media : Text) :
    renderImport url media
      = "@import".toList ++ ' ' :: apostrophe :: (url ++ apostrophe :: mediaTail media) := by
  have hmark : "@import '".toList = "@import".toList ++ [' ', apostrophe] := by decide +kernel
  have htail : (if media.isEmpty then ['\x27'] else '\x27' :: ' ' :: media)
      = apostrophe :: mediaTail media := by
    cases media <;> rfl
  unfold renderImport
  rw [hmark, htail]
  simp only [List.append_assoc, List.cons_append, List.nil_append]

/-- The blank before the media goes when they are read. -/
theorem collapse_mediaTail {media : Text} (h : Text.collapse media = media) :
    Text.collapse (mediaTail media) = media := by
  cases media with
  | nil => rfl
  | cons c media =>
      have hgap : Text.collapse ([' '] ++ (c :: media ++ [])) = Text.collapse (c :: media) :=
        Text.collapse_gap rfl rfl _
      rw [List.append_nil, h] at hgap
      exact hgap

/-- The statement of an import ends with a quote or with the media. -/
theorem hasEnds_target {c : Char} (hc : isBlank c = false) (between : Text) {media : Text}
    (h : Text.HasEnds media) : Text.HasEnds (c :: (between ++ apostrophe :: mediaTail media)) := by
  have hfront := Text.HasEnds.singleton hc
  cases media with
  | nil => exact hfront.append (.singleton (by decide)) (by simp) (by simp) between
  | cons d media =>
      have hends := hfront.append h (by simp) (by simp) (between ++ [apostrophe, ' '])
      simpa [mediaTail] using hends

/-- An import that is written has no blanks at its ends. -/
theorem hasEnds_renderImport (url : Text) {media : Text} (h : Text.HasEnds media) :
    Text.HasEnds (renderImport url media) := by
  have hat : isBlank '@' = false := by decide
  rw [renderImport_eq, keyword_eq]
  simpa using hasEnds_target hat ("import".toList ++ ' ' :: apostrophe :: url) h

/-- Behind the keyword only the blank is trimmed. -/
theorem trim_target (url : Text) {media : Text} (h : Text.HasEnds media) :
    Text.trim (' ' :: apostrophe :: (url ++ apostrophe :: mediaTail media))
      = apostrophe :: (url ++ apostrophe :: mediaTail media) := by
  show Text.trim ([' '] ++ apostrophe :: (url ++ apostrophe :: mediaTail media)) = _
  exact Text.trim_behind (hasEnds_target (by decide) url h) rfl

/-- The first four bytes behind the keyword of an import, as it is written,
do not end inside a character. -/
def IsUncut (url media : Text) : Prop :=
  4 ≤ Text.size (apostrophe :: (url ++ apostrophe :: mediaTail media)) →
    isPlace 4 (apostrophe :: (url ++ apostrophe :: mediaTail media)) = true

instance (url media : Text) : Decidable (IsUncut url media) :=
  inferInstanceAs (Decidable (_ → _))

/-- A target is made of ASCII characters and is not empty. With its quotes, and
with the blank before media, it has the four bytes, and each of them is a
character. -/
theorem isUncut_target {url : Text} (hurl : Text.IsTarget url) (media : Text) :
    IsUncut url media := by
  intro h
  obtain ⟨hne, hchars⟩ := hurl
  have hquoted : ∀ c ∈ apostrophe :: (url ++ [apostrophe]), c.toNat < 128 := by
    simp only [List.forall_mem_cons, List.forall_mem_append]
    exact ⟨by decide, fun c hc => (hchars c hc).1, by decide, by simp⟩
  have hlength := List.length_pos_iff.mpr hne
  cases media with
  | nil =>
      -- Nothing follows the quote, so the bytes are the characters.
      show isPlace 4 (apostrophe :: (url ++ [apostrophe])) = true
      have hsize : 4 ≤ Text.size (apostrophe :: (url ++ [apostrophe])) := h
      rw [Text.size_eq_length hquoted] at hsize
      simpa using Text.isPlace_append hquoted hsize []
  | cons c media =>
      have hascii : ∀ d ∈ apostrophe :: (url ++ [apostrophe, ' ']), d.toNat < 128 := by
        intro d hd
        rw [List.append_cons, ← List.cons_append, List.mem_append, List.mem_singleton] at hd
        rcases hd with hd | rfl
        · exact hquoted d hd
        · decide
      have hlong : 4 ≤ (apostrophe :: (url ++ [apostrophe, ' '])).length := by
        simp only [List.length_cons, List.length_append, List.length_nil]
        omega
      have hplace := Text.isPlace_append hascii hlong (c :: media)
      simpa [mediaTail] using hplace

/-- An import that is read back from what is written for it. Its target
ends at the quote that is put behind it and begins and ends with neither
quotes nor blanks, and the media stay in the segment. -/
structure Survives (nested : Bool) (url media : Text) : Prop where
  body : Literal.StringBody apostrophe url
  bare : unquote url = url
  uncut : IsUncut url media
  closed : ∀ p ∈ pieces media, p.closed = true
  passed : passed nested 0 (pieces media) = some 0

/-- The targets and media of a clean tree survive, in a block and outside. -/
theorem survives_target (nested : Bool) {url media : Text} (hurl : Text.IsTarget url)
    (hmedia : Text.IsContained media) : Survives nested url media :=
  ⟨hurl.stringBody, Text.unquote_target hurl, isUncut_target hurl media, hmedia.closed,
    passed_of_openBehind nested hmedia.inert hmedia.balanced⟩

/-- A quoted target and the media behind it. -/
theorem parseImport_target {url media : Text} (hbody : Literal.StringBody apostrophe url)
    (hbare : unquote url = url) (huncut : IsUncut url media) (hmedia : Text.IsCollapsed media) :
    parseImport (' ' :: apostrophe :: (url ++ apostrophe :: mediaTail media))
      = .ok (.importUrl url media) := by
  have hplace : (4 ≤ Text.size (apostrophe :: (url ++ apostrophe :: mediaTail media))
      && !isPlace 4 (apostrophe :: (url ++ apostrophe :: mediaTail media))) = false := by
    simpa [IsUncut] using huncut
  have hquote : isQuote apostrophe = true := rfl
  have hletters : ∀ r, Text.afterLetters? "url(".toList (apostrophe :: r) = none := fun _ => rfl
  have htake := (Text.isClosedString_quoted hbody).take? (mediaTail media)
  rw [Text.quoted, List.cons_append, List.append_assoc, List.singleton_append] at htake
  have hunquote : unquote (apostrophe :: (url ++ [apostrophe])) = url :=
    (Text.unquote_quoted url).trans hbare
  rw [parseImport, trim_target url hmedia.toHasEnds]
  simp only [hplace, hletters, hquote, htake, Piece.text, hunquote,
    collapse_mediaTail hmedia.collapse_eq, Bool.false_eq_true, if_false, if_true]

/-- A segment that begins with the keyword, in any letters, is an import. -/
theorem ofSegment_keyword {segment t r : Text} (htrim : Text.trim segment = t)
    (hkeyword : Text.afterLetters? "@import".toList t = some r) :
    ofSegment segment = (parseImport r).map some := by
  rw [ofSegment, htrim]
  cases t with
  | nil => cases hkeyword
  | cons c t => simp only [hkeyword]

/-- An import that was written is read as one, whatever blanks stand before it. -/
theorem ofSegment_renderImport (url : Text) {media : Text} (hmedia : Text.HasEnds media)
    {gap : Text} (hgap : Text.blank gap = true) :
    ofSegment (gap ++ renderImport url media)
      = (parseImport (' ' :: apostrophe :: (url ++ apostrophe :: mediaTail media))).map some := by
  refine ofSegment_keyword (Text.trim_behind (hasEnds_renderImport url hmedia) hgap) ?_
  rw [renderImport_eq]
  rfl

/-- An import is one segment. -/
theorem Survives.isSegment {nested : Bool} {url media : Text} (h : Survives nested url media) :
    Text.IsSegment nested 0 (renderImport url media) := by
  have hcontained : Text.IsContained ("@import".toList ++ [' ']) := by decide +kernel
  -- The line is put together from the left: the keyword,
  -- the target, and the media if there are any.
  have hkeyword : Text.IsSegment nested 0 ("@import".toList ++ [' ']) := by
    rw [keyword_eq] at hcontained ⊢
    exact hcontained.isSegment (Text.HasEnds.singleton (c := '@') (by decide)).head rfl
  have hquoted := Text.pieces_quoted h.body
  have htarget : Text.IsSegment nested 0 ("@import".toList ++ [' '] ++ Text.quoted url) := by
    refine hkeyword.append (by simp) ?_ ?_ (by simp [Text.quoted, apostrophe])
    · rw [hquoted, List.forall_mem_singleton]
      exact (Text.isClosedString_quoted h.body).closed
    · rw [hquoted]
      rfl
  have htail : pieces (mediaTail media) = [] ∨ pieces (mediaTail media) = .plain ' ' :: pieces media := by
    cases media with
    | nil => exact .inl (by simp [mediaTail, pieces])
    | cons c media => exact .inr (pieces_cons (by decide) (by decide) _)
  have hspace : (Piece.plain ' ').passed nested 0 = some 0 := by
    cases nested <;> rfl
  have hline : Text.IsSegment nested 0
      ("@import".toList ++ [' '] ++ Text.quoted url ++ mediaTail media) := by
    refine htarget.append (by simp) ?_ ?_ ?_
    · rcases htail with hnil | hcons
      · simp [hnil]
      · rw [hcons, List.forall_mem_cons]
        exact ⟨rfl, h.closed⟩
    · rcases htail with hnil | hcons
      · rw [hnil]
        rfl
      · rw [hcons]
        exact passed_cons.mpr ⟨0, hspace, h.passed⟩
    · unfold mediaTail
      split <;> simp
  rw [renderImport_eq]
  simpa [Text.quoted] using hline

/-- The statement of an import. -/
theorem ofSegment_importUrl {nested : Bool} {url media : Text} (h : Survives nested url media)
    (hmedia : Text.IsCollapsed media) {gap : Text} (hgap : Text.blank gap = true) :
    ofSegment (gap ++ renderImport url media) = .ok (some (.importUrl url media)) := by
  rw [ofSegment_renderImport url hmedia.toHasEnds hgap,
    parseImport_target h.body h.bare h.uncut hmedia]
  rfl

/-! ### Statements that are read as what they are -/

/-- A clean statement is read back. It must not look like an import, for which
there is another kind of node. -/
theorem ReadsAs.statement {t : Text} (ht : (Node.statement t).IsClean) (hne : t ≠ [])
    (himport : Text.beginsImport t = false) : ReadsAs [.statement t] (t ++ [';']) := by
  obtain ⟨hclean, hcomment, hkind⟩ := ht
  refine .line (hclean.isSegment hcomment) fun _ hgap => ofSegment_statement hclean.hasEnds hne himport
    (fun _ => hclean.collapsed) ?_ hgap
  exact fun hat => hkind.resolve_left fun h => hat h.1

/-- A clean declaration is read back, with any blanks behind the colon. -/
theorem ReadsAs.declaration {name value : Text} (h : (Node.declaration name value).IsClean)
    {gap : Text} (hgap : Text.blank gap = true) :
    ReadsAs [.declaration name value] (name ++ ':' :: (gap ++ value) ++ [';']) := by
  obtain ⟨hname, hcomment, hat, htop, hvalue⟩ := h
  have hdepth := depthBehind_of_openBehind hname.balanced
  refine .line ?_ fun front hfront => ofSegment_declaration hname.hasEnds hvalue.hasEnds hat
    hname.closed htop hdepth hfront hgap
  have hbehind : Text.IsContained (':' :: (gap ++ value)) :=
    .cons (by decide) (.gap hgap hvalue.toIsContained)
  by_cases hne : name = []
  · subst hne
    exact hbehind.isSegment (by simp; decide) rfl
  · exact (hname.isSegment hcomment).append_contained hne hbehind (by simp)

/-- An import that survives is read back. Collapsed media are the only ones
that can be, since the parser collapses them. -/
theorem ReadsAs.importUrl {nested : Bool} {url media : Text} (h : Survives nested url media)
    (hmedia : Text.IsCollapsed media) :
    ReadsAs [.importUrl url media] (renderImport url media ++ [';']) nested :=
  .line h.isSegment fun _ hgap => ofSegment_importUrl h hmedia hgap

/-- An import of a clean tree is read back. -/
theorem ReadsAs.importClean {url media : Text} (hurl : Text.IsTarget url)
    (hmedia : Text.IsClean media) :
    ReadsAs [.importUrl url media] (renderImport url media ++ [';']) :=
  .importUrl (survives_target true hurl hmedia.toIsContained)
    (Text.collapse_eq_self_iff.mp hmedia.collapsed)

end Node

end Stylesheet
