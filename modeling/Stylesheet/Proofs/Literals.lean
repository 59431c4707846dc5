import Stylesheet.Proofs.Pieces

/-!
# Closed literals from inside

`Literal.takeString` and `Literal.takeComment` look two characters ahead.
What a closed literal is can be told one character at a time: behind a
backslash a character of a string is escaped, and behind a star a slash
ends a comment. `insideString` and `insideComment` go over characters in
this way as long as the literal does not end, so a literal is closed if
they get to what ends it (`IsClosedString`, `IsClosedComment`). In this form it can be
seen what becomes of a literal when characters inside it are replaced.
-/

set_option autoImplicit false

namespace Stylesheet

namespace Literal

/-! ### Inside a literal -/

/-- Over a character inside a string: whether the next one is escaped.
There is no answer where the string ends. -/
def stringStep (q : Char) (escaped : Bool) (c : Char) : Option Bool :=
  if escaped then some false
  else if c = '\\' then some true
  else if c = '\n' ∨ c = q then none
  else some false

/-- Over some characters inside a string. -/
def insideString (q : Char) (escaped : Bool) (t : Text) : Option Bool :=
  t.foldlM (stringStep q) escaped

/-- Over a character inside a comment: whether it is a star. There is no
answer where the comment ends. -/
def commentStep (star : Bool) (c : Char) : Option Bool :=
  if star ∧ c = '/' then none else some (c == '*')

/-- Over some characters inside a comment. -/
def insideComment (star : Bool) (t : Text) : Option Bool := t.foldlM commentStep star

/-- Going over two texts is going over one after the other. -/
theorem insideString_append (q : Char) (escaped : Bool) (s t : Text) :
    insideString q escaped (s ++ t)
      = (insideString q escaped s).bind fun e => insideString q e t :=
  List.foldlM_append

/-- The same for comments. -/
theorem insideComment_append (star : Bool) (s t : Text) :
    insideComment star (s ++ t) = (insideComment star s).bind fun e => insideComment e t :=
  List.foldlM_append

/-- One character and then the others. -/
theorem insideString_cons {q : Char} {escaped e : Bool} {c : Char} {t : Text} :
    insideString q escaped (c :: t) = some e
      ↔ ∃ e', stringStep q escaped c = some e' ∧ insideString q e' t = some e := by
  rw [insideString, List.foldlM_cons]
  exact Option.bind_eq_some_iff

/-- The same for comments. -/
theorem insideComment_cons {star e : Bool} {c : Char} {t : Text} :
    insideComment star (c :: t) = some e
      ↔ ∃ e', commentStep star c = some e' ∧ insideComment e' t = some e := by
  rw [insideComment, List.foldlM_cons]
  exact Option.bind_eq_some_iff

/-- What may stand between the quotes of a string. -/
inductive StringBody (q : Char) : Text → Prop where
  | nil : StringBody q []
  | escaped (d : Char) {body : Text} (hbody : StringBody q body) : StringBody q ('\\' :: d :: body)
  | char {c : Char} {body : Text} (hback : c ≠ '\\') (hline : c ≠ '\n') (hquote : c ≠ q)
      (hbody : StringBody q body) : StringBody q (c :: body)

/-- The two descriptions of what stands between quotes are one: by its
characters and escapes, and by the flag that a scan carries. -/
theorem stringBody_iff {q : Char} {body : Text} :
    StringBody q body ↔ insideString q false body = some false := by
  constructor
  · intro h
    induction h with
    | nil => rfl
    | escaped d hbody ih => exact ih
    | char hback hline hquote hbody ih =>
        exact insideString_cons.mpr ⟨false, by simp [stringStep, hback, hline, hquote], ih⟩
  · intro h
    -- An escaped character is gone over together with its backslash.
    induction hn : body.length using Nat.strongRecOn generalizing body with
    | ind n ih =>
        match body, h with
        | [], _ => exact .nil
        | c :: body, h =>
            obtain ⟨e, hc, hbody⟩ := insideString_cons.mp h
            by_cases hback : c = '\\'
            · subst hback
              obtain rfl : true = e := by simpa [stringStep] using hc
              match body, hbody with
              | d :: body, hbody =>
                  refine .escaped d (ih body.length ?_ hbody rfl)
                  simp only [← hn, List.length_cons]
                  omega
            · have hne : c ≠ '\n' ∧ c ≠ q := by
                rw [← not_or]
                intro hend
                simp [stringStep, hback, hend] at hc
              obtain rfl : false = e := by simpa [stringStep, hback, hne] using hc
              exact .char hback hne.1 hne.2 (ih body.length (by simp [← hn]) hbody rfl)

section

variable {q : Char}

/-- A backslash takes the next character along, whatever it is. -/
theorem takeString_escape (d : Char) (r : Text) : takeString q ('\\' :: d :: r)
    = ('\\' :: d :: (takeString q r).1, (takeString q r).2) := by
  simp [takeString]

/-- Any other character goes to the string. -/
theorem takeString_cons {c : Char} (hback : c ≠ '\\') (hline : c ≠ '\n') (hquote : c ≠ q) (r : Text) :
    takeString q (c :: r) = (c :: (takeString q r).1, (takeString q r).2) := by
  cases r with
  | nil => simp [takeString, hline]
  | cons d r => simp [takeString, hback, hline, hquote]

/-- The string ends with its quote. -/
theorem takeString_quote (hq : isQuote q = true) (r : Text) : takeString q (q :: r) = ([q], r) := by
  have hback : q ≠ '\\' := ne_of_isQuote hq (by decide)
  have hline : q ≠ '\n' := ne_of_isQuote hq (by decide)
  cases r <;> simp [takeString, hback, hline]

/-- The end of the line ends the string too, and is not part of it. -/
theorem takeString_line (r : Text) : takeString q ('\n' :: r) = ([], '\n' :: r) := by
  cases r <;> simp [takeString]

end

/-- A text behind an opening quote: the string goes on behind it, or it ends
with a backslash that takes the next character along, or there is a
character in it at which the string ends. -/
theorem stringBody_cases (q : Char) (t : Text) : StringBody q t
    ∨ (∃ body, t = body ++ ['\\'] ∧ StringBody q body)
    ∨ ∃ body c rest, t = body ++ c :: rest ∧ StringBody q body ∧ (c = q ∨ c = '\n') := by
  -- An escaped character is gone over together with its backslash.
  induction hn : t.length using Nat.strongRecOn generalizing t with
  | ind n ih =>
      cases t with
      | nil => exact .inl .nil
      | cons c r =>
          rw [List.length_cons] at hn
          by_cases hback : c = '\\'
          · subst hback
            cases r with
            | nil => exact .inr (.inl ⟨[], rfl, .nil⟩)
            | cons d r =>
                rw [List.length_cons] at hn
                rcases ih r.length (by omega) r rfl with hr | ⟨body, rfl, hbody⟩
                  | ⟨body, c, rest, rfl, hbody, hc⟩
                · exact .inl (.escaped d hr)
                · exact .inr (.inl ⟨'\\' :: d :: body, rfl, .escaped d hbody⟩)
                · exact .inr (.inr ⟨'\\' :: d :: body, c, rest, rfl, .escaped d hbody, hc⟩)
          · by_cases hend : c = q ∨ c = '\n'
            · exact .inr (.inr ⟨[], c, r, rfl, .nil, hend⟩)
            · obtain ⟨hquote, hline⟩ := not_or.mp hend
              rcases ih r.length (by omega) r rfl with hr | ⟨body, rfl, hbody⟩
                | ⟨body, d, rest, rfl, hbody, hd⟩
              · exact .inl (.char hback hline hquote hr)
              · exact .inr (.inl ⟨c :: body, rfl, .char hback hline hquote hbody⟩)
              · exact .inr (.inr ⟨c :: body, d, rest, rfl, .char hback hline hquote hbody, hd⟩)

/-- A string that was read to its quote. -/
theorem exists_of_endsString {q : Char} {t : Text}
    (h : endsString q (takeString q t).1 = true) :
    ∃ body, (takeString q t).1 = body ++ [q] ∧ StringBody q body := by
  fun_induction takeString q t with
  | case1 => cases h
  | case2 c hc => cases h
  | case3 c hc =>
      obtain rfl : c = q := by simpa [endsString] using h
      exact ⟨[], rfl, .nil⟩
  | case4 c d r hb inside rest heq ih =>
      obtain rfl : c = '\\' := by simpa using hb
      rw [heq] at ih
      obtain ⟨body, rfl, hbody⟩ := ih (by simpa [endsString] using h)
      exact ⟨'\\' :: d :: body, rfl, .escaped d hbody⟩
  | case5 c d r hb hn => cases h
  | case6 c d r hb hn hcq =>
      obtain rfl : c = q := by simpa using hcq
      exact ⟨[], rfl, .nil⟩
  -- An ordinary character: the string goes on, and it ends where the rest of it does.
  | case7 c d r hb hn hcq inside rest heq ih =>
      rw [heq] at ih
      have hinside : endsString q inside = true := by
        cases inside with
        | nil => simp [endsString, hcq] at h
        | cons e inside => simpa [endsString, hb] using h
      obtain ⟨body, rfl, hbody⟩ := ih hinside
      exact ⟨c :: body, rfl, .char (by simpa using hb) (by simpa using hn) (by simpa using hcq) hbody⟩

namespace StringBody

variable {q : Char} {body : Text}

/-- A string goes on behind it. -/
theorem takeString_append (h : StringBody q body) (rest : Text) :
    takeString q (body ++ rest) = (body ++ (takeString q rest).1, (takeString q rest).2) := by
  induction h with
  | nil => rfl
  | escaped d hbody ih => rw [List.cons_append, List.cons_append, takeString_escape, ih]; rfl
  | char hback hline hquote hbody ih =>
      rw [List.cons_append, takeString_cons hback hline hquote, ih]
      rfl

/-- A string is read to its quote. -/
theorem takeString_eq (h : StringBody q body) (hq : isQuote q = true) (rest : Text) :
    takeString q (body ++ q :: rest) = (body ++ [q], rest) := by
  rw [h.takeString_append, takeString_quote hq]

/-- A string that was read to its quote is closed. -/
theorem endsString_eq (h : StringBody q body) : endsString q (body ++ [q]) = true := by
  induction h with
  | nil => simp [endsString]
  | escaped d hbody ih => simpa [endsString] using ih
  | @char c body hcb hcl hcq hbody ih =>
      obtain ⟨d, r, hdr⟩ : ∃ d r, body ++ [q] = d :: r := List.exists_cons_of_ne_nil (by simp)
      rw [hdr] at ih
      rw [List.cons_append, hdr, endsString]
      simp [hcb, ih]

end StringBody

/-- Behind a star, a character that does not close the comment is the same
as anywhere in it. -/
theorem commentStep_eq {star : Bool} {c : Char} (h : star = true → c ≠ '/') :
    commentStep star c = commentStep false c := by
  cases star with
  | false => rfl
  | true => simp [commentStep, h rfl]

/-- A comment that was read to its end. -/
theorem exists_of_endsComment {t : Text} (h : endsComment (takeComment t).1 = true) :
    ∃ body, (takeComment t).1 = body ++ ['/'] ∧ insideComment false body = some true := by
  fun_induction takeComment t with
  | case1 => cases h
  | case2 c =>
      have hlength := (List.isSuffixOf_iff_suffix.mp h).length_le
      simp at hlength
  | case3 c d r hcd =>
      obtain ⟨rfl, rfl⟩ : c = '*' ∧ d = '/' := by simpa using hcd
      exact ⟨['*'], rfl, rfl⟩
  | case4 c d r hcd inside rest heq ih =>
      have hhead := head?_takeComment d r
      rw [heq] at ih hhead
      obtain ⟨body, rfl, hbody⟩ := ih (by rwa [endsComment_cons hcd hhead] at h)
      refine ⟨c :: body, rfl, insideComment_cons.mpr ⟨c == '*', by simp [commentStep], ?_⟩⟩
      cases body with
      | nil => cases hbody
      | cons e body =>
          obtain rfl : e = d := by simpa using hhead
          -- The character in front does not close the comment
          -- with the next one, so it makes no difference.
          have he : (c == '*') = true → e ≠ '/' := by
            rintro hc rfl
            exact hcd (by simpa using hc)
          rw [insideComment_cons] at hbody ⊢
          rwa [commentStep_eq he]

/-- A comment is read to its end. -/
theorem takeComment_of_inside {body : Text} (h : insideComment false body = some true)
    (rest : Text) : takeComment (body ++ '/' :: rest) = (body ++ ['/'], rest) := by
  induction body with
  | nil => cases h
  | cons c body ih =>
      obtain ⟨e, hc, hbody⟩ := insideComment_cons.mp h
      obtain rfl : (c == '*') = e := by simpa [commentStep] using hc
      match body, hbody with
      | [], hbody =>
          obtain rfl : c = '*' := by simpa [insideComment] using hbody
          simp [takeComment]
      | d :: body, hbody =>
          -- A star with a slash behind it would have ended the comment.
          have hd : (c == '*') = true → d ≠ '/' := by
            rintro hstar rfl
            obtain ⟨e, hslash, -⟩ := insideComment_cons.mp hbody
            simp [commentStep, hstar] at hslash
          have hmark : (c == '*' && d == '/') = false := by
            rw [Bool.eq_false_iff]
            intro hboth
            rw [Bool.and_eq_true] at hboth
            exact hd hboth.1 (by simpa using hboth.2)
          have htail := ih (by
            rw [insideComment_cons] at hbody ⊢
            rwa [commentStep_eq hd] at hbody)
          rw [List.cons_append] at htail
          rw [List.cons_append, List.cons_append, takeComment]
          simp [hmark, htail]

/-- A comment ends behind a star. -/
theorem exists_of_insideComment {star : Bool} {body : Text}
    (h : insideComment star body = some true) (hne : body ≠ []) : ∃ front, body = front ++ ['*'] := by
  rcases List.eq_nil_or_concat body with rfl | ⟨front, c, rfl⟩
  · exact absurd rfl hne
  · rw [List.concat_eq_append, insideComment_append] at h
    obtain ⟨e, -, hc⟩ := Option.bind_eq_some_iff.mp h
    obtain ⟨e', hstep, hend⟩ := insideComment_cons.mp hc
    obtain rfl : e' = true := by simpa [insideComment] using hend
    have hstar : c = '*' := by
      unfold commentStep at hstep
      split at hstep
      · cases hstep
      · simpa using hstep
    exact ⟨front, by simp [hstar]⟩

/-! ### Closed literals -/

/-- A string with its quotes. -/
def IsClosedString (s : Text) : Prop :=
  ∃ q body, isQuote q = true ∧ s = q :: (body ++ [q]) ∧ StringBody q body

/-- A comment with its marks. -/
def IsClosedComment (s : Text) : Prop :=
  ∃ body, s = '/' :: '*' :: (body ++ ['/']) ∧ insideComment false body = some true

/-- A closed string is taken as it is, whatever stands behind it. -/
theorem IsClosedString.take? {s : Text} (h : IsClosedString s) (rest : Text) :
    take? (s ++ rest) = some (.string s, rest) := by
  obtain ⟨q, body, hq, rfl, hbody⟩ := h
  have htake := take?_quote hq (body ++ q :: rest)
  rw [hbody.takeString_eq hq] at htake
  simpa using htake

/-- It is a closed piece. -/
theorem IsClosedString.closed {s : Text} (h : IsClosedString s) : (Piece.string s).closed = true := by
  obtain ⟨q, body, -, rfl, hbody⟩ := h
  exact hbody.endsString_eq

/-- A closed comment is taken as it is, whatever stands behind it. -/
theorem IsClosedComment.take? {s : Text} (h : IsClosedComment s) (rest : Text) :
    take? (s ++ rest) = some (.comment s, rest) := by
  obtain ⟨body, rfl, hbody⟩ := h
  have htake := take?_comment (body ++ '/' :: rest)
  rw [takeComment_of_inside hbody] at htake
  simpa using htake

/-- It is a closed piece. -/
theorem IsClosedComment.closed {s : Text} (h : IsClosedComment s) : (Piece.comment s).closed = true := by
  obtain ⟨body, rfl, hbody⟩ := h
  obtain ⟨front, rfl⟩ := exists_of_insideComment hbody (by rintro rfl; cases hbody)
  refine List.isSuffixOf_iff_suffix.mpr ⟨front, ?_⟩
  simp

/-- A closed literal at the front of a text. -/
theorem take?_closed {t rest : Text} {p : Piece} (h : take? t = some (p, rest))
    (hclosed : p.closed = true) :
    (∃ s, p = .string s ∧ IsClosedString s) ∨ ∃ s, p = .comment s ∧ IsClosedComment s := by
  rcases take?_cases h with ⟨q, r, hq, -, rfl, -⟩ | ⟨r, -, rfl, -⟩
  · obtain ⟨body, heq, hbody⟩ := exists_of_endsString hclosed
    exact .inl ⟨_, rfl, q, body, hq, by rw [heq], hbody⟩
  · obtain ⟨body, heq, hbody⟩ := exists_of_endsComment hclosed
    exact .inr ⟨_, rfl, body, by rw [heq], hbody⟩

/-- A string with text behind it is closed, unless its line ends. -/
theorem endsString_of_rest {q : Char} (hq : isQuote q = true) {t : Text}
    (hne : (takeString q t).2 ≠ []) (hline : (takeString q t).2.head? ≠ some '\n') :
    endsString q (takeString q t).1 = true := by
  rcases stringBody_cases q t with ht | ⟨body, rfl, hbody⟩ | ⟨body, c, rest, rfl, hbody, rfl | rfl⟩
  · have htake := ht.takeString_append []
    rw [List.append_nil] at htake
    rw [htake] at hne
    exact absurd rfl hne
  · rw [hbody.takeString_append] at hne
    exact absurd rfl hne
  · rw [hbody.takeString_eq hq]
    exact hbody.endsString_eq
  · rw [hbody.takeString_append, takeString_line] at hline
    exact absurd rfl hline

/-- A comment with text behind it is closed, since nothing but its mark ends
it. -/
theorem endsComment_of_rest {t : Text} (hne : (takeComment t).2 ≠ []) :
    endsComment (takeComment t).1 = true := by
  fun_induction takeComment t with
  | case1 => exact absurd rfl hne
  | case2 c => exact absurd rfl hne
  | case3 c d r hcd =>
      simp only [Bool.and_eq_true, beq_iff_eq] at hcd
      rw [hcd.1, hcd.2]
      rfl
  | case4 c d r hcd inside rest heq ih =>
      have hhead := head?_takeComment d r
      rw [heq] at ih hhead
      rw [endsComment_cons hcd hhead]
      exact ih hne

/-- A literal with text behind it is closed. For strings the end of the line is
excluded: there they end without a quote. -/
theorem closed_of_rest {t rest : Text} {p : Piece} (h : take? t = some (p, rest)) (hne : rest ≠ [])
    (hline : rest.head? ≠ some '\n') : p.closed = true := by
  rcases take?_cases h with ⟨q, r, hq, -, rfl, rfl⟩ | ⟨r, -, rfl, rfl⟩
  · exact endsString_of_rest hq hne hline
  · exact endsComment_of_rest hne

end Literal

/-- The pieces of a text of closed literals. -/
theorem mem_pieces_closed {t : Text} {p : Piece} (hp : p ∈ pieces t) (hclosed : p.closed = true) :
    (∃ c, p = .plain c) ∨ (∃ s, p = .string s ∧ Literal.IsClosedString s)
      ∨ ∃ s, p = .comment s ∧ Literal.IsClosedComment s := by
  fun_induction pieces t with
  | case1 => cases hp
  | case2 c r p' rest h ih =>
      rcases List.mem_cons.mp hp with rfl | hp
      · exact .inr (Literal.take?_closed h hclosed)
      · exact ih hp
  | case3 c r h ih =>
      rcases List.mem_cons.mp hp with rfl | hp
      · exact .inl ⟨c, rfl⟩
      · exact ih hp

/-- A text that is not empty has a piece. -/
theorem pieces_ne_nil {t : Text} (hne : t ≠ []) : pieces t ≠ [] := by
  intro hnil
  have htext := text_pieces t
  rw [hnil] at htext
  exact hne htext.symm

/-- In one line, all literals are closed if the text does not end with
one. -/
theorem closed_of_getLast? {t : Text} {c : Char} (hlast : (pieces t).getLast? = some (.plain c))
    (hline : '\n' ∉ t) : ∀ p ∈ pieces t, p.closed = true := by
  fun_induction pieces t with
  | case1 => simp
  | case2 d r p rest h ih =>
      have htext := Literal.text_append_of_take? h
      have hrestLine : '\n' ∉ rest := by
        rw [← htext] at hline
        exact fun hmem => hline (List.mem_append_right _ hmem)
      -- A literal is not the last piece, so something stands behind it in the same line.
      have hne : rest ≠ [] := by
        rintro rfl
        rw [pieces, List.getLast?_singleton, Option.some.injEq] at hlast
        rcases Literal.take?_cases h with ⟨_, _, _, _, rfl, _⟩ | ⟨_, _, rfl, _⟩
        · cases hlast
        · cases hlast
      rw [List.getLast?_cons_of_ne_nil (pieces_ne_nil hne)] at hlast
      refine List.forall_mem_cons.mpr ⟨Literal.closed_of_rest h hne fun hhead => ?_, ih hlast hrestLine⟩
      exact hrestLine (List.mem_of_head? hhead)
  | case3 d r h ih =>
      refine List.forall_mem_cons.mpr ⟨rfl, ?_⟩
      by_cases hnil : pieces r = []
      · simp [hnil]
      · rw [List.getLast?_cons_of_ne_nil hnil] at hlast
        exact ih hlast fun hmem => hline (List.mem_cons_of_mem _ hmem)

/-! ### The strings of a text -/

/-- The string that a piece is. -/
def Piece.string? : Piece → Option Text
  | .string s => some s
  | _ => none

/-- The strings among some pieces. -/
def stringsOf (ps : List Piece) : List Text := ps.filterMap Piece.string?

/-- The string literals of a text, outside comments and in order. -/
def strings (t : Text) : List Text := stringsOf (pieces t)

/-- The strings of a row are those of its parts. -/
theorem stringsOf_append (ps qs : List Piece) :
    stringsOf (ps ++ qs) = stringsOf ps ++ stringsOf qs :=
  List.filterMap_append

/-- A plain character is no string. -/
@[simp] theorem stringsOf_plain (c : Char) (ps : List Piece) :
    stringsOf (.plain c :: ps) = stringsOf ps := rfl

/-- A string is one. -/
@[simp] theorem stringsOf_string (s : Text) (ps : List Piece) :
    stringsOf (.string s :: ps) = s :: stringsOf ps := rfl

/-- A comment is none. -/
@[simp] theorem stringsOf_comment (s : Text) (ps : List Piece) :
    stringsOf (.comment s :: ps) = stringsOf ps := rfl

/-- There is no string among plain characters. -/
@[simp] theorem stringsOf_map_plain (t : Text) : stringsOf (t.map .plain) = [] := by
  rw [stringsOf, List.filterMap_map]
  exact List.filterMap_eq_nil_iff.mpr fun _ _ => rfl

end Stylesheet
