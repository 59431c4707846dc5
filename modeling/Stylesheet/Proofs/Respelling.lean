import Stylesheet.Proofs.Literals
import Stylesheet.Proofs.Parsed
import Stylesheet.Proofs.Unquoted

/-!
# Texts in which stretches are spelled another way

Several steps of the printers look for stretches of a text and write each
of them in a shorter way: a run of blanks as one space, a colour in
hexadecimal, a zero without its unit. They know nothing of strings and
comments. What they do to the literals of a text can be told nevertheless.
No such stretch has a quote or a slash in it, so it lies inside a literal
or outside all of them; and whether a stretch is found does not depend on
what stands behind a quote or a slash (`IsRespelling`).

`rowRespelled_pieces` is the result. In a text of closed literals, a
literal becomes the literal that it would become alone, and between the
literals stretches of plain characters become such stretches. So closed
literals stay closed, brackets are counted as before, and the strings of
the text are the respelled strings.
-/

set_option autoImplicit false

namespace Stylesheet

open Text

/-! ### Replacing stretches -/

/-- Says what stands for the stretch at a place, if there is one, and how
long the stretch is. The place is given by the text before it, nearest
character first, and the text ahead. -/
abbrev Respeller := Text → Text → Option (Text × Nat)

/-- The text ahead of a place, with new spellings. -/
def respellFrom (f : Respeller) (behind ahead : Text) : Text :=
  (Cut.scanFrom f behind 0 ahead).fill id

/-- A text with new spellings. -/
def respell (f : Respeller) (t : Text) : Text := respellFrom f [] t

section

variable {f : Respeller} {b : Text}

/-- Nothing is left at the end. -/
@[simp] theorem respellFrom_nil : respellFrom f b [] = [] := rfl

/-- A character at which nothing is found is kept. -/
theorem respellFrom_cons {c : Char} {r : Text} (h : f b (c :: r) = none) :
    respellFrom f b (c :: r) = c :: respellFrom f (c :: b) r := by
  rw [respellFrom, Cut.scanFrom, h]
  simp [respellFrom]

/-- A stretch that is found is replaced, and the scan goes on behind it. It
must not be empty, because the scan goes over a character at least. -/
theorem respellFrom_found {x r out : Text} (h : f b (x ++ r) = some (out, x.length))
    (hne : x ≠ []) : respellFrom f b (x ++ r) = out ++ respellFrom f (x.reverse ++ b) r := by
  obtain ⟨c, x, rfl⟩ := List.exists_cons_of_ne_nil hne
  have hskip := Cut.scanFrom_skip f (c :: b) x r
  rw [List.cons_append] at h ⊢
  rw [respellFrom, Cut.scanFrom, h]
  simp [respellFrom, hskip]

/-- Characters at which nothing is found stay as they are. -/
theorem respellFrom_append_of_none {word : Text} (hword : ∀ c ∈ word, ∀ b r, f b (c :: r) = none)
    (b rest : Text) :
    respellFrom f b (word ++ rest) = word ++ respellFrom f (word.reverse ++ b) rest := by
  induction word generalizing b with
  | nil => rfl
  | cons c word ih =>
      obtain ⟨hc, hword⟩ := List.forall_mem_cons.mp hword
      rw [List.cons_append, respellFrom_cons (hc b _), ih hword]
      simp

end

/-! ### Spellings -/

/-- The characters that tell literals, blocks, segments and names
apart. -/
def structureMarks : List Char := ['"', apostrophe, '/', '\\', '*', '{', '}', ';', ':']

/-- A stretch `x` and its new spelling `y`, which is made of characters
that `new` holds of. -/
structure IsSpelling (new : Char → Bool) (x y : Text) : Prop where
  left_ne : x ≠ []
  right_ne : y ≠ []
  left_free : FreeOf structureMarks x
  right_free : FreeOf structureMarks y
  right_new : ∀ c ∈ y, new c = true
  /-- No line ends in the new spelling. -/
  right_line : '\n' ∉ y
  /-- Both do the same to the count of brackets. -/
  depth_eq : ∀ d, y.foldl Node.bracketDepth d = x.foldl Node.bracketDepth d

/-- What is found are stretches with their spellings, behind some
characters that are kept. Nothing behind a quote or a slash matters, nor
does anything in front but the nearest character. -/
structure IsRespelling (new : Char → Bool) (f : Respeller) : Prop where
  found : ∀ {b t out : Text} {n : Nat}, f b t = some (out, n) →
    ∃ kept x y r, t = kept ++ (x ++ r) ∧ out = kept ++ y ∧ n = (kept ++ x).length
      ∧ FreeOf structureMarks kept ∧ IsSpelling new x y
  right : ∀ (b : Text) {w : Text} {c : Char} (r : Text), w ≠ [] → c ∈ literalMarks →
    f b (w ++ c :: r) = f b w
  left : ∀ {b b' : Text} (t : Text), b.head? = b'.head? → f b t = f b' t

/-- Quotes and slashes are among the marks. -/
theorem literalMarks_subset : literalMarks ⊆ structureMarks := by
  simp [literalMarks, structureMarks]

/-- How a text becomes its new spelling, character by character and
stretch by stretch. -/
inductive Respelled (new : Char → Bool) (f : Respeller) : Text → Text → Text → Prop where
  | nil (b : Text) : Respelled new f b [] []
  | keep {b : Text} {c : Char} {r u : Text} (hnone : f b (c :: r) = none)
      (hr : Respelled new f (c :: b) r u) : Respelled new f b (c :: r) (c :: u)
  | found {b kept x y r u : Text}
      (hfound : f b (kept ++ (x ++ r)) = some (kept ++ y, (kept ++ x).length))
      (hkept : FreeOf structureMarks kept) (hxy : IsSpelling new x y)
      (hr : Respelled new f ((kept ++ x).reverse ++ b) r u) :
      Respelled new f b (kept ++ (x ++ r)) (kept ++ (y ++ u))

namespace Respelled

variable {new : Char → Bool} {f : Respeller} {b t u : Text}

/-- A text becomes one new spelling only, the one that `respellFrom` gives. -/
theorem eq (h : Respelled new f b t u) : respellFrom f b t = u := by
  induction h with
  | nil b => rfl
  | keep hnone hr ih => rw [respellFrom_cons hnone, ih]
  | @found b kept x y r u hfound hkept hxy hr ih =>
      rw [← List.append_assoc] at hfound ⊢
      rw [respellFrom_found hfound (by simp [hxy.left_ne]), ih, List.append_assoc]

end Respelled

namespace IsRespelling

variable {new : Char → Bool} {f : Respeller} (hf : IsRespelling new f)

include hf

/-- Every text becomes its new spelling in this way. -/
theorem respelled (b t : Text) : Respelled new f b t (respellFrom f b t) := by
  induction hn : t.length using Nat.strongRecOn generalizing b t with
  | ind n ih =>
      cases t with
      | nil => exact .nil b
      | cons c r =>
          cases hc : f b (c :: r) with
          | none =>
              rw [respellFrom_cons hc]
              exact .keep hc (ih r.length (by simp [← hn]) _ _ rfl)
          | some found =>
              -- What is found is not empty, so what is left is shorter.
              obtain ⟨kept, x, y, r', ht, hout, hlength, hkept, hxy⟩ := hf.found hc
              have hpair : found = (kept ++ y, (kept ++ x).length) := Prod.ext hout hlength
              rw [ht, hpair] at hc
              have hne : kept ++ x ≠ [] := by simp [hxy.left_ne]
              have hshorter : r'.length < n := by
                have hlt := List.length_pos_iff.mpr hxy.left_ne
                rw [← hn, ht]
                simp only [List.length_append]
                omega
              have hstretch : f b ((kept ++ x) ++ r') = some (kept ++ y, (kept ++ x).length) := by
                rw [List.append_assoc]
                exact hc
              rw [ht, ← List.append_assoc, respellFrom_found hstretch hne, List.append_assoc,
                List.append_assoc]
              exact .found hc hkept hxy (ih r'.length hshorter _ _ rfl)

/-- Nothing is found at a quote or a slash, nor at a mark of any other
kind. -/
theorem eq_none {c : Char} (hc : c ∈ structureMarks) (b r : Text) : f b (c :: r) = none := by
  cases hfound : f b (c :: r) with
  | none => rfl
  | some found =>
      obtain ⟨kept, x, y, r', ht, -, -, hkept, hxy⟩ := hf.found hfound
      have hmem : c ∈ kept ++ x := by
        rw [← List.append_assoc] at ht
        obtain ⟨d, s, hds⟩ := List.exists_cons_of_ne_nil (l := kept ++ x) (by simp [hxy.left_ne])
        rw [hds, List.cons_append] at ht
        rw [hds, (List.cons.inj ht).1]
        exact List.mem_cons_self
      have hfree := freeOf_append.mpr ⟨hkept, hxy.left_free⟩
      exact absurd hc (hfree c hmem)

/-- A mark is kept. -/
theorem respellFrom_mark {c : Char} (hc : c ∈ structureMarks) (b r : Text) :
    respellFrom f b (c :: r) = c :: respellFrom f (c :: b) r :=
  respellFrom_cons (hf.eq_none hc b r)

/-- Only the nearest character in front matters. -/
theorem respellFrom_congr {b b' : Text} (h : b.head? = b'.head?) (t : Text) :
    respellFrom f b t = respellFrom f b' t := by
  have hcongr : ∀ {b t u : Text}, Respelled new f b t u → ∀ b', b.head? = b'.head? →
      respellFrom f b' t = u := by
    intro b t u hrun
    induction hrun with
    | nil b => exact fun b' _ => rfl
    | @keep b c r u hnone hr ih =>
        intro b' h
        rw [hf.left _ h] at hnone
        rw [respellFrom_cons hnone, ih (c :: b') rfl]
    | @found b kept x y r u hfound hkept hxy hr ih =>
        intro b' h
        have hne : kept ++ x ≠ [] := by simp [hxy.left_ne]
        have hhead : ((kept ++ x).reverse ++ b).head? = ((kept ++ x).reverse ++ b').head? := by
          rw [List.head?_append_of_ne_nil _ (mt List.reverse_eq_nil_iff.mp hne),
            List.head?_append_of_ne_nil _ (mt List.reverse_eq_nil_iff.mp hne)]
        rw [hf.left _ h, ← List.append_assoc] at hfound
        rw [← List.append_assoc, respellFrom_found hfound hne, ih _ hhead, List.append_assoc]
  exact (hcongr (hf.respelled b t) b' h).symm

/-- At a quote or a slash a text falls apart. -/
theorem respellFrom_append {c : Char} (hc : c ∈ literalMarks) (b u r : Text) :
    respellFrom f b (u ++ c :: r) = respellFrom f b u ++ respellFrom f (u.reverse ++ b) (c :: r) := by
  -- By induction on the steps of the first part: behind it stands a mark, which no stretch that
  -- is found goes over.
  have happend : ∀ {b u v : Text}, Respelled new f b u v →
      respellFrom f b (u ++ c :: r) = v ++ respellFrom f (u.reverse ++ b) (c :: r) := by
    intro b u v hrun
    induction hrun with
    | nil b => rfl
    | @keep b d u v hnone hr ih =>
        have hnone' : f b (d :: (u ++ c :: r)) = none := by
          rw [← List.cons_append, hf.right b r (by simp) hc, hnone]
        rw [List.cons_append, respellFrom_cons hnone', ih]
        simp
    | @found b kept x y u v hfound hkept hxy hr ih =>
        have hfound' : f b ((kept ++ x) ++ (u ++ c :: r))
            = some (kept ++ y, (kept ++ x).length) := by
          have hright := hf.right b (w := kept ++ (x ++ u)) r (by simp [hxy.left_ne]) hc
          rw [hfound] at hright
          simpa using hright
        have hsplit : kept ++ (x ++ u) ++ c :: r = (kept ++ x) ++ (u ++ c :: r) := by simp
        rw [hsplit, respellFrom_found hfound' (by simp [hxy.left_ne]), ih]
        simp
  exact happend (hf.respelled b u)

end IsRespelling

/-! ### Literals -/

namespace Literal

section

variable {q : Char} {escaped star : Bool}

/-- Behind a character that is no mark a string goes on with nothing escaped,
unless the line ends there. -/
theorem stringStep_of_not_mem (hq : isQuote q = true) {c : Char} (hc : c ∉ structureMarks) :
    (∀ e, stringStep q escaped c = some e → e = false)
      ∧ (c ≠ '\n' → stringStep q escaped c = some false) := by
  have hback : c ≠ '\\' := fun h => hc (h ▸ by decide)
  have hcq : c ≠ q := by
    rintro rfl
    have hmarks : c = '"' ∨ c = apostrophe := by simpa [isQuote] using hq
    rcases hmarks with rfl | rfl
    · exact hc (by decide)
    · exact hc (by decide)
  cases escaped with
  | true => simp [stringStep]
  | false =>
      by_cases hline : c = '\n'
      · simp [stringStep, hline]
      · simp [stringStep, hback, hline, hcq]

/-- Inside a string, a stretch leads to where any character leads. -/
theorem eq_false_of_insideString (hq : isQuote q = true) {x : Text} (hne : x ≠ [])
    (hfree : FreeOf structureMarks x) {e : Bool} (h : insideString q escaped x = some e) :
    e = false := by
  induction x generalizing escaped with
  | nil => exact absurd rfl hne
  | cons c x ih =>
      obtain ⟨hc, hx⟩ := freeOf_cons.mp hfree
      obtain ⟨e', hstep, hrest⟩ := insideString_cons.mp h
      obtain rfl := (stringStep_of_not_mem hq hc).1 e' hstep
      cases x with
      | nil => exact (Option.some.inj hrest).symm
      | cons d x => exact ih (by simp) hx hrest

/-- A stretch of such characters stays inside the string. -/
theorem insideString_of_freeOf (hq : isQuote q = true) {y : Text} (hne : y ≠ [])
    (hfree : FreeOf structureMarks y) (hline : '\n' ∉ y) :
    insideString q escaped y = some false := by
  induction y generalizing escaped with
  | nil => exact absurd rfl hne
  | cons c y ih =>
      obtain ⟨hc, hy⟩ := freeOf_cons.mp hfree
      simp only [List.mem_cons, not_or] at hline
      refine insideString_cons.mpr ⟨false, (stringStep_of_not_mem hq hc).2 (Ne.symm hline.1), ?_⟩
      cases y with
      | nil => rfl
      | cons d y => exact ih (by simp) hy hline.2

/-- A stretch without stars stays inside a comment, not behind a star. -/
theorem insideComment_of_freeOf {x : Text} (hne : x ≠ []) (hfree : FreeOf structureMarks x) :
    insideComment star x = some false := by
  induction x generalizing star with
  | nil => exact absurd rfl hne
  | cons c x ih =>
      obtain ⟨hc, hx⟩ := freeOf_cons.mp hfree
      have hslash : c ≠ '/' := fun h => hc (h ▸ by decide)
      have hstar : c ≠ '*' := fun h => hc (h ▸ by decide)
      refine insideComment_cons.mpr ⟨false, by simp [commentStep, hslash, hstar], ?_⟩
      cases x with
      | nil => rfl
      | cons d x => exact ih (by simp) hx

end

end Literal

namespace Respelled

open Literal

variable {new : Char → Bool} {f : Respeller} {b t u : Text}

/-- A new spelling leads through a string as the text did. The other way round
fails: the end of a line may be spelled away. -/
theorem insideString_eq (h : Respelled new f b t u) {q : Char} (hq : isQuote q = true)
    {escaped e : Bool} (ht : insideString q escaped t = some e) :
    insideString q escaped u = some e := by
  induction h generalizing escaped with
  | nil b => exact ht
  | keep hnone hr ih =>
      obtain ⟨e', hstep, hrest⟩ := insideString_cons.mp ht
      exact insideString_cons.mpr ⟨e', hstep, ih hrest⟩
  | found hfound hkept hxy hr ih =>
      rw [insideString_append] at ht ⊢
      obtain ⟨e₁, hkept', ht⟩ := Option.bind_eq_some_iff.mp ht
      rw [insideString_append] at ht
      obtain ⟨e₂, hx, hrest⟩ := Option.bind_eq_some_iff.mp ht
      -- Behind either spelling nothing is escaped.
      obtain rfl := eq_false_of_insideString hq hxy.left_ne hxy.left_free hx
      rw [hkept', Option.bind_some, insideString_append,
        insideString_of_freeOf hq hxy.right_ne hxy.right_free hxy.right_line, Option.bind_some]
      exact ih hrest

/-- A new spelling leads through a comment as the text did. -/
theorem insideComment_eq (h : Respelled new f b t u) {star e : Bool}
    (ht : insideComment star t = some e) : insideComment star u = some e := by
  induction h generalizing star with
  | nil b => exact ht
  | keep hnone hr ih =>
      obtain ⟨e', hstep, hrest⟩ := insideComment_cons.mp ht
      exact insideComment_cons.mpr ⟨e', hstep, ih hrest⟩
  | found hfound hkept hxy hr ih =>
      rw [insideComment_append] at ht ⊢
      obtain ⟨e₁, hkept', ht⟩ := Option.bind_eq_some_iff.mp ht
      rw [insideComment_append, insideComment_of_freeOf hxy.left_ne hxy.left_free,
        Option.bind_some] at ht
      rw [hkept', Option.bind_some, insideComment_append,
        insideComment_of_freeOf hxy.right_ne hxy.right_free, Option.bind_some]
      exact ih ht

end Respelled

namespace IsRespelling

open Literal

variable {new : Char → Bool} {f : Respeller} (hf : IsRespelling new f)

include hf

/-- A string becomes a string, the one that it would become alone. -/
theorem respellFrom_string {s : Text} (hs : IsClosedString s) :
    IsClosedString (respell f s) ∧ ∀ b rest,
      respellFrom f b (s ++ rest) = respell f s ++ respellFrom f (s.reverse ++ b) rest := by
  obtain ⟨q, body, hq, rfl, hbody⟩ := hs
  have hmark : q ∈ literalMarks := by
    simp only [isQuote, Bool.or_eq_true, beq_iff_eq] at hq
    simp only [literalMarks, List.mem_cons]
    rcases hq with hq | hq
    · exact .inl hq
    · exact .inr (.inl hq)
  -- The quotes are marks: they stay, and neither what is
  -- before them nor what is behind makes a difference inside.
  have hlaw : ∀ b rest, respellFrom f b (q :: (body ++ [q]) ++ rest)
      = q :: (respellFrom f [q] body ++ [q])
        ++ respellFrom f ((q :: (body ++ [q])).reverse ++ b) rest := by
    intro b rest
    have hinside : respellFrom f (q :: b) body = respellFrom f [q] body := by
      apply hf.respellFrom_congr
      rfl
    rw [List.cons_append, hf.respellFrom_mark (literalMarks_subset hmark), List.append_assoc,
      List.singleton_append, hf.respellFrom_append hmark, hinside,
      hf.respellFrom_mark (literalMarks_subset hmark)]
    simp
  have halone : respell f (q :: (body ++ [q])) = q :: (respellFrom f [q] body ++ [q]) := by
    have h := hlaw [] []
    rwa [List.append_nil, respellFrom_nil, List.append_nil] at h
  rw [halone]
  refine ⟨⟨q, _, hq, rfl, ?_⟩, hlaw⟩
  exact stringBody_iff.mpr ((hf.respelled [q] body).insideString_eq hq (stringBody_iff.mp hbody))

/-- A comment becomes a comment, the one that it would become alone. -/
theorem respellFrom_comment {s : Text} (hs : IsClosedComment s) :
    IsClosedComment (respell f s) ∧ ∀ b rest,
      respellFrom f b (s ++ rest) = respell f s ++ respellFrom f (s.reverse ++ b) rest := by
  obtain ⟨body, rfl, hbody⟩ := hs
  have hmark : '/' ∈ literalMarks := by decide
  have hslash : '/' ∈ structureMarks := by decide
  have hstar : '*' ∈ structureMarks := by decide
  -- Of the sign at the end only the slash is a mark
  -- of literals, so the star belongs to the body.
  have hlaw : ∀ b rest, respellFrom f b ('/' :: '*' :: (body ++ ['/']) ++ rest)
      = '/' :: '*' :: (respellFrom f ['*'] body ++ ['/'])
        ++ respellFrom f (('/' :: '*' :: (body ++ ['/'])).reverse ++ b) rest := by
    intro b rest
    have hinside : respellFrom f ('*' :: '/' :: b) body = respellFrom f ['*'] body := by
      apply hf.respellFrom_congr
      rfl
    rw [List.cons_append, List.cons_append, hf.respellFrom_mark hslash, hf.respellFrom_mark hstar,
      List.append_assoc, List.singleton_append, hf.respellFrom_append hmark, hinside,
      hf.respellFrom_mark hslash]
    simp
  have halone : respell f ('/' :: '*' :: (body ++ ['/']))
      = '/' :: '*' :: (respellFrom f ['*'] body ++ ['/']) := by
    have h := hlaw [] []
    rwa [List.append_nil, respellFrom_nil, List.append_nil] at h
  rw [halone]
  exact ⟨⟨_, rfl, (hf.respelled ['*'] body).insideComment_eq hbody⟩, hlaw⟩

end IsRespelling

/-! ### Neighbours -/

namespace Respelled

variable {new : Char → Bool} {f : Respeller} {b t u : Text}

/-- Characters are kept or new. -/
theorem mem (h : Respelled new f b t u) {d : Char} (hd : d ∈ u) : d ∈ t ∨ new d = true := by
  induction h with
  | nil b => exact .inl hd
  | keep hnone hr ih =>
      rcases List.mem_cons.mp hd with rfl | hd
      · exact .inl List.mem_cons_self
      · exact (ih hd).imp_left (List.mem_cons_of_mem _)
  | found hfound hkept hxy hr ih =>
      rcases List.mem_append.mp hd with hd | hd
      · exact .inl (List.mem_append_left _ hd)
      · rcases List.mem_append.mp hd with hd | hd
        · exact .inr (hxy.right_new d hd)
        · refine (ih hd).imp_left fun hr => ?_
          exact List.mem_append_right _ (List.mem_append_right _ hr)

/-- A new spelling begins as the text did, or with a new character. -/
theorem head (h : Respelled new f b t u) :
    ∀ d ∈ u.head?, t.head? = some d ∨ new d = true ∧ d ∉ structureMarks := by
  intro d hd
  cases h with
  | nil b => cases hd
  | keep hnone hr => exact .inl hd
  | @found b kept x y r u hfound hkept hxy hr =>
      cases kept with
      | nil =>
          have hmem : d ∈ y := by
            rw [List.nil_append, List.head?_append_of_ne_nil _ hxy.right_ne] at hd
            exact List.mem_of_mem_head? hd
          exact .inr ⟨hxy.right_new d hmem, hxy.right_free d hmem⟩
      | cons c kept => exact .inl hd

/-- Only the empty text becomes empty, since no spelling is. -/
theorem eq_nil (h : Respelled new f b t []) : t = [] := by
  generalize hu : ([] : Text) = u at h
  cases h with
  | nil b => rfl
  | keep hnone hr => cases hu
  | found hfound hkept hxy hr =>
      have hy := (List.append_eq_nil_iff.mp (List.append_eq_nil_iff.mp hu.symm).2).1
      exact absurd hy hxy.right_ne

/-- It ends as the text did, or with a new character. -/
theorem last (h : Respelled new f b t u) :
    ∀ d ∈ u.getLast?, t.getLast? = some d ∨ new d = true := by
  intro d hd
  induction h with
  | nil b => cases hd
  | @keep b c r u hnone hr ih =>
      by_cases hu : u = []
      · subst hu
        obtain rfl := hr.eq_nil
        exact .inl hd
      · have hr' : r ≠ [] := by
          rintro rfl
          exact hu (hr.eq.symm)
        rw [List.getLast?_cons_of_ne_nil hu] at hd
        rw [List.getLast?_cons_of_ne_nil hr']
        exact ih hd
  -- A new spelling is the end of the text only if nothing follows the old one.
  | @found b kept x y r u hfound hkept hxy hr ih =>
      by_cases hu : u = []
      · subst hu
        rw [List.append_nil, List.getLast?_append_of_ne_nil _ hxy.right_ne] at hd
        exact .inr (hxy.right_new d (List.mem_of_getLast? hd))
      · have hr' : r ≠ [] := by
          rintro rfl
          exact hu (hr.eq.symm)
        rw [← List.append_assoc, List.getLast?_append_of_ne_nil _ hu] at hd
        rw [← List.append_assoc, List.getLast?_append_of_ne_nil _ hr']
        exact ih hd

/-- Neighbours stay in a relation in which new characters are to
everything. -/
theorem isChain {S : Char → Char → Prop} (hS : ∀ c d, new c = true ∨ new d = true → S c d)
    (h : Respelled new f b t u) (ht : t.IsChain S) : u.IsChain S := by
  induction h with
  | nil b => exact ht
  | keep hnone hr ih =>
      obtain ⟨hnext, htail⟩ := List.isChain_cons.mp ht
      refine List.isChain_cons.mpr ⟨fun d hd => ?_, ih htail⟩
      rcases hr.head d hd with hkept | ⟨hnew, -⟩
      · exact hnext d hkept
      · exact hS _ d (.inr hnew)
  | @found b kept x y r u hfound hkept hxy hr ih =>
      obtain ⟨hkept', hbehind, -⟩ := List.isChain_append.mp ht
      obtain ⟨-, hrest, -⟩ := List.isChain_append.mp hbehind
      have hnew : ∀ c ∈ y.getLast?, new c = true :=
        fun c hc => hxy.right_new c (List.mem_of_getLast? hc)
      -- Neighbours within the new spelling are both new, and at its two ends one of them is.
      have hy : y.IsChain S := List.isChain_iff_forall_rel_of_append_cons_cons.mpr
        fun c d front back heq => hS c d (.inl (hxy.right_new c (by rw [heq]; simp)))
      refine List.isChain_append.mpr ⟨hkept', List.isChain_append.mpr ⟨hy, ih hrest, ?_⟩, ?_⟩
      · exact fun c hc d _ => hS c d (.inl (hnew c hc))
      · intro c _ d hd
        rw [List.head?_append_of_ne_nil _ hxy.right_ne] at hd
        exact hS c d (.inr (hxy.right_new d (List.mem_of_mem_head? hd)))

end Respelled

/-! ### Rows of pieces -/

/-- How the pieces of a text become those of its new spelling. A literal
becomes what `g` makes of it. -/
inductive RowRespelled (new : Char → Bool) (g : Text → Text) : List Piece → List Piece → Prop where
  | nil : RowRespelled new g [] []
  | keep (c : Char) {ps qs : List Piece} (hrow : RowRespelled new g ps qs) :
      RowRespelled new g (.plain c :: ps) (.plain c :: qs)
  | found {x y : Text} {ps qs : List Piece} (hxy : IsSpelling new x y)
      (hrow : RowRespelled new g ps qs) :
      RowRespelled new g (x.map .plain ++ ps) (y.map .plain ++ qs)
  | string {s : Text} {ps qs : List Piece} (hs : Literal.IsClosedString (g s))
      (hrow : RowRespelled new g ps qs) : RowRespelled new g (.string s :: ps) (.string (g s) :: qs)
  | comment {s : Text} {ps qs : List Piece} (hs : Literal.IsClosedComment (g s))
      (hrow : RowRespelled new g ps qs) : RowRespelled new g (.comment s :: ps) (.comment (g s) :: qs)

/-- Characters that begin no literal are pieces of their own. -/
theorem pieces_append_of_freeOf {x : Text} (hx : FreeOf literalMarks x) (r : Text) :
    pieces (x ++ r) = x.map .plain ++ pieces r := by
  induction x with
  | nil => rfl
  | cons c x ih =>
      obtain ⟨hc, hx⟩ := freeOf_cons.mp hx
      have hslash : c ≠ '/' := by
        rintro rfl
        exact hc (by decide)
      rw [List.cons_append, pieces_cons (isQuote_of_not_mem hc) hslash, ih hx]
      rfl

/-- A row of characters that are kept. -/
theorem RowRespelled.keepAll {new : Char → Bool} {g : Text → Text} {ps qs : List Piece} (kept : Text)
    (h : RowRespelled new g ps qs) :
    RowRespelled new g (kept.map .plain ++ ps) (kept.map .plain ++ qs) := by
  induction kept with
  | nil => exact h
  | cons c kept ih => exact .keep c ih

/-- **Respelling goes piece by piece** in a text of closed literals. -/
theorem IsRespelling.rowRespelled_pieces {new : Char → Bool} {f : Respeller}
    (hf : IsRespelling new f) {t : Text} (hclosed : ∀ p ∈ pieces t, p.closed = true) (b : Text) :
    RowRespelled new (respell f) (pieces t) (pieces (respellFrom f b t)) := by
  induction hn : t.length using Nat.strongRecOn generalizing t b with
  | ind n ih =>
      subst hn
      cases htake : Literal.take? t with
      | some found =>
          obtain ⟨p, rest⟩ := found
          have hshorter := Literal.length_lt_of_take? htake
          have htext := Literal.text_append_of_take? htake
          rw [pieces_of_take? htake, List.forall_mem_cons] at hclosed
          have hrest := fun b => ih rest.length hshorter hclosed.2 b rfl
          rw [pieces_of_take? htake, ← htext]
          -- A literal is respelled apart from what follows it.
          rcases Literal.take?_closed htake hclosed.1 with ⟨s, rfl, hs⟩ | ⟨s, rfl, hs⟩
          · obtain ⟨hstring, hlaw⟩ := hf.respellFrom_string hs
            rw [Piece.text, hlaw, pieces_of_take? (hstring.take? _)]
            exact .string hstring (hrest _)
          · obtain ⟨hcomment, hlaw⟩ := hf.respellFrom_comment hs
            rw [Piece.text, hlaw, pieces_of_take? (hcomment.take? _)]
            exact .comment hcomment (hrest _)
      | none =>
          have hmono : ∀ {w : Text}, FreeOf structureMarks w → FreeOf literalMarks w :=
            fun hw => hw.mono literalMarks_subset
          have hrun := hf.respelled b t
          generalize respellFrom f b t = u at hrun
          cases hrun with
          | nil => simpa [pieces] using RowRespelled.nil
          | @keep _ c r u hnone hr =>
              obtain ⟨hquote, hstar⟩ := Literal.take?_eq_none.mp htake
              -- The new spelling of what follows a slash makes no comment with it.
              have hplain : Literal.take? (c :: u) = none := by
                refine Literal.take?_eq_none.mpr ⟨hquote, fun hc hhead => ?_⟩
                rcases hr.head '*' hhead with hkept | ⟨-, hnew⟩
                · exact hstar hc hkept
                · exact hnew (by decide)
              rw [pieces_of_plain htake, List.forall_mem_cons] at hclosed
              rw [pieces_of_plain htake, pieces_of_plain hplain, ← hr.eq]
              exact .keep c (ih r.length (Nat.lt_succ_self _) hclosed.2 _ rfl)
          | @found _ kept x y r u hfound hkept hxy hr =>
              have hshorter : r.length < (kept ++ (x ++ r)).length := by
                have hlt := List.length_pos_iff.mpr hxy.left_ne
                simp only [List.length_append]
                omega
              rw [pieces_append_of_freeOf (hmono hkept), pieces_append_of_freeOf (hmono hxy.left_free),
                List.forall_mem_append, List.forall_mem_append] at hclosed
              rw [pieces_append_of_freeOf (hmono hkept), pieces_append_of_freeOf (hmono hxy.left_free),
                pieces_append_of_freeOf (hmono hkept), pieces_append_of_freeOf (hmono hxy.right_free),
                ← hr.eq]
              exact .keepAll kept (.found hxy (ih r.length hshorter hclosed.2.2 _ rfl))

namespace RowRespelled

variable {new : Char → Bool} {g : Text → Text} {ps qs : List Piece}

/-- The pieces of a new spelling are closed. -/
theorem closed (h : RowRespelled new g ps qs) : ∀ q ∈ qs, q.closed = true := by
  induction h with
  | nil => simp
  | keep c hrow ih => exact List.forall_mem_cons.mpr ⟨rfl, ih⟩
  | found hxy hrow ih =>
      refine List.forall_mem_append.mpr ⟨fun q hq => ?_, ih⟩
      obtain ⟨c, -, rfl⟩ := List.mem_map.mp hq
      rfl
  | string hs hrow ih => exact List.forall_mem_cons.mpr ⟨hs.closed, ih⟩
  | comment hs hrow ih => exact List.forall_mem_cons.mpr ⟨hs.closed, ih⟩

/-- The strings are respelled one by one. -/
theorem stringsOf_eq (h : RowRespelled new g ps qs) : stringsOf qs = (stringsOf ps).map g := by
  induction h with
  | nil => rfl
  | keep c hrow ih => exact ih
  | found hxy hrow ih =>
      rw [stringsOf_append, stringsOf_append, stringsOf_map_plain, stringsOf_map_plain]
      exact ih
  | string hs hrow ih => exact congrArg _ ih
  | comment hs hrow ih => exact ih

/-- A stretch ends no segment. -/
theorem passed_map_plain {x : Text} (hx : FreeOf structureMarks x) (nested : Bool) (d : Nat) :
    passed nested d (x.map .plain) = some (x.foldl Node.bracketDepth d) := by
  induction x generalizing d with
  | nil => rfl
  | cons c x ih =>
      obtain ⟨hc, hx⟩ := freeOf_cons.mp hx
      have hne : ∀ m ∈ structureMarks, c ≠ m := fun m hm h => hc (h ▸ hm)
      have hends : endsSegment nested d c = false := by
        simp [endsSegment, hne '{' (by decide), hne '}' (by decide), hne ';' (by decide)]
      exact passed_cons.mpr ⟨_, Piece.passed_plain.mpr ⟨hends, rfl⟩, ih hx _⟩

/-- The parser goes over both rows in the same way. -/
theorem passed_eq (h : RowRespelled new g ps qs) (nested : Bool) (d : Nat) :
    passed nested d qs = passed nested d ps := by
  induction h generalizing d with
  | nil => rfl
  | keep c hrow ih =>
      simp only [passed, List.foldlM_cons] at ih ⊢
      exact congrArg _ (funext ih)
  | found hxy hrow ih =>
      rw [passed_append, passed_append, passed_map_plain hxy.left_free,
        passed_map_plain hxy.right_free, hxy.depth_eq]
      exact ih _
  | string hs hrow ih => exact ih d
  | comment hs hrow ih => exact ih d

/-- A stretch has no colon, and moves the count of brackets. -/
theorem hasTop_map_plain {x : Text} (hx : FreeOf structureMarks x) (ps : List Piece) (d : Nat) :
    hasTop ':' d (x.map .plain ++ ps) = hasTop ':' (x.foldl Node.bracketDepth d) ps := by
  induction x generalizing d with
  | nil => rfl
  | cons c x ih =>
      obtain ⟨hc, hx⟩ := freeOf_cons.mp hx
      have hcolon : (c == ':') = false := by
        rw [beq_eq_false_iff_ne]
        exact fun h => hc (h ▸ by decide)
      rw [List.map_cons, List.cons_append, hasTop, hcolon, ih hx]
      rfl

/-- No colon comes up that was not there. -/
theorem hasTop_eq (h : RowRespelled new g ps qs) (d : Nat) :
    hasTop ':' d qs = hasTop ':' d ps := by
  induction h generalizing d with
  | nil => rfl
  | keep c hrow ih => rw [hasTop, hasTop, ih]
  | found hxy hrow ih =>
      rw [hasTop_map_plain hxy.left_free, hasTop_map_plain hxy.right_free, hxy.depth_eq, ih]
  | string hs hrow ih => exact ih d
  | comment hs hrow ih => exact ih d

/-- Pieces that are to everything as they should be: literals and new
characters. -/
def solid (new : Char → Bool) : Piece → Bool
  | .plain c => new c
  | _ => true

/-- A row begins as it did, or with a piece that fits anywhere. -/
theorem head (h : RowRespelled new g ps qs) :
    ∀ q ∈ qs.head?, ps.head? = some q ∨ solid new q = true := by
  intro q hq
  cases h with
  | nil => cases hq
  | keep c hrow => exact .inl hq
  | @found x y ps qs hxy hrow =>
      rw [List.head?_append_of_ne_nil _ (by simp [hxy.right_ne])] at hq
      obtain ⟨c, hc, rfl⟩ := List.mem_map.mp (List.mem_of_mem_head? hq)
      exact .inr (hxy.right_new c hc)
  | string hs hrow =>
      cases hq
      exact .inr rfl
  | comment hs hrow =>
      cases hq
      exact .inr rfl

/-- Neighbours stay in a relation in which such pieces are to everything. -/
theorem isChain {S : Piece → Piece → Prop}
    (hS : ∀ p q, solid new p = true ∨ solid new q = true → S p q)
    (h : RowRespelled new g ps qs) (hps : ps.IsChain S) : qs.IsChain S := by
  -- New characters and literals are solid, so only two kept characters have to be looked up
  -- in the old row.
  induction h with
  | nil => exact hps
  | keep c hrow ih =>
      obtain ⟨hnext, htail⟩ := List.isChain_cons.mp hps
      refine List.isChain_cons.mpr ⟨fun q hq => ?_, ih htail⟩
      rcases hrow.head q hq with hkept | hnew
      · exact hnext q hkept
      · exact hS _ q (.inr hnew)
  | @found x y ps qs hxy hrow ih =>
      obtain ⟨-, htail, -⟩ := List.isChain_append.mp hps
      have hnew : ∀ p ∈ y.map Piece.plain, solid new p = true := by
        intro p hp
        obtain ⟨c, hc, rfl⟩ := List.mem_map.mp hp
        exact hxy.right_new c hc
      refine List.isChain_append.mpr ⟨?_, ih htail, ?_⟩
      · exact List.isChain_iff_forall_rel_of_append_cons_cons.mpr
          fun p q front back heq => hS p q (.inl (hnew p (by rw [heq]; simp)))
      · exact fun p hp q _ => hS p q (.inl (hnew p (List.mem_of_getLast? hp)))
  | string hs hrow ih =>
      exact List.isChain_cons.mpr ⟨fun q _ => hS _ q (.inl rfl), ih (List.isChain_cons.mp hps).2⟩
  | comment hs hrow ih =>
      exact List.isChain_cons.mpr ⟨fun q _ => hS _ q (.inl rfl), ih (List.isChain_cons.mp hps).2⟩

end RowRespelled

/-! ### Texts -/

namespace IsRespelling

variable {new : Char → Bool} {f : Respeller} (hf : IsRespelling new f) {t : Text}

include hf

/-- The strings of a new spelling are the new spellings of the strings. -/
theorem strings_respell (hclosed : ∀ p ∈ pieces t, p.closed = true) :
    strings (respell f t) = (strings t).map (respell f) :=
  (hf.rowRespelled_pieces hclosed []).stringsOf_eq

/-- A scan ends with as many brackets open. That it ends outside of literals
says that these are closed, so the spelling goes piece by piece. -/
theorem endsAt_respell {nested : Bool} {d depth : Nat} (h : Scan.EndsAt nested ⟨.plain, d⟩ t depth) :
    Scan.EndsAt nested ⟨.plain, d⟩ (respell f t) depth := by
  obtain ⟨hclosed, hpassed⟩ := (Scan.endsAt_iff t).mp h
  have hrow := hf.rowRespelled_pieces hclosed []
  refine (Scan.endsAt_iff _).mpr ⟨hrow.closed, ?_⟩
  rw [← hpassed]
  exact hrow.passed_eq nested d

/-- If new characters are no blanks, collapsed texts stay so. -/
theorem isCollapsed_respell (hnew : ∀ c, new c = true → isBlank c = false) (ht : IsCollapsed t) :
    IsCollapsed (respell f t) := by
  have hrun : Respelled new f [] t (respell f t) := hf.respelled [] t
  refine ⟨⟨?_, ?_⟩, ?_, ?_⟩
  · intro c hc
    rcases hrun.head c hc with hkept | ⟨hc', -⟩
    · exact ht.head c hkept
    · exact hnew c hc'
  · intro c hc
    rcases hrun.last c hc with hkept | hc'
    · exact ht.last c hkept
    · exact hnew c hc'
  · intro c hc hblank
    rcases hrun.mem hc with hkept | hc'
    · exact ht.space c hkept hblank
    · rw [hnew c hc'] at hblank
      cases hblank
  · refine hrun.isChain (fun c d hcd => ?_) ht.single
    exact hcd.imp (hnew c) (hnew d)

end IsRespelling

end Stylesheet
