import Stylesheet.Proofs.Quotes

/-!
# The parent sign and strings

The branches of a header are divided with regard to strings: a comma in a string
divides nothing. The outer selector is put in without: `Selector.nest` looks for
`&` in the whole branch, and replaces it in strings as well. `compose_altered` has
an attribute that loses its value in this way, and a branch that is not taken for a
descendant because of its string.

`Selector.nestApart` is composition with strings left alone. The two agree if no
string of the branch has an `&` in it. They also agree if the outer selector is
itself `&` and the branch has another one outside its strings, and in no other case
(`nest_eq_iff`): an outer selector of any other length would change the length, and
what is replaced would have to be found again. `compose_opaque_iff` says this of whole
headers.
-/

set_option autoImplicit false

namespace Stylesheet

/-! ### Strings of the branches -/

/-- The strings of a text are those of its parts. -/
theorem flatMap_strings_splitTop (separator : Char) (t : Text) :
    (splitTop separator t).flatMap strings = strings t := by
  obtain ⟨first, others, hsplit, hpieces, -⟩ := exists_pieces_splitTop separator t
  have hothers : stringsOf (others.flatMap fun part => .plain separator :: pieces part)
      = others.flatMap strings := by
    rw [stringsOf, List.filterMap_flatMap]
    rfl
  rw [hsplit, List.flatMap_cons, strings, strings, hpieces, stringsOf_append, hothers]

/-- Trimming the parts and leaving out those that are empty loses no string. -/
theorem Selector.flatMap_strings_branches {header : Text} (h : StringsClosed header) :
    (branches header).flatMap strings = strings header := by
  have hparts : ∀ parts : List Text, (∀ part ∈ parts, StringsClosed part) →
      ((parts.map Text.trim).filter (!·.isEmpty)).flatMap strings = parts.flatMap strings := by
    intro parts hclosed
    induction parts with
    | nil => rfl
    | cons part parts ih =>
        rw [List.forall_mem_cons] at hclosed
        rw [List.map_cons, List.flatMap_cons, ← strings_trim_eq hclosed.1, ← ih hclosed.2,
          List.filter_cons]
        split
        · rfl
        · rename_i hempty
          have hnil : Text.trim part = [] := by simpa using hempty
          rw [hnil, strings, pieces]
          rfl
  rw [branches, hparts _ fun part hpart => h.of_mem_splitTop hpart, flatMap_strings_splitTop]

/-! ### Counting what is replaced -/

/-- One character and then the others. -/
theorem Text.substitute_cons (c d : Char) (new t : Text) :
    substitute c new (d :: t) = (if d == c then new else [d]) ++ substitute c new t :=
  List.flatMap_cons

/-- How often characters of some class occur when a text takes the place of a
character. -/
theorem Text.countP_substitute (f : Char → Bool) (c : Char) (new t : Text) :
    (substitute c new t).countP f + t.count c * (if f c then 1 else 0)
      = t.countP f + t.count c * new.countP f := by
  induction t with
  | nil => simp [substitute]
  | cons d t ih =>
      by_cases hd : d = c
      · subst hd
        rw [substitute_cons, List.countP_append, List.count_cons_self, List.countP_cons,
          Nat.add_mul, Nat.add_mul]
        simp only [beq_self_eq_true, if_true]
        omega
      · rw [substitute_cons, List.countP_append, List.count_cons_of_ne hd, List.countP_cons]
        simp only [beq_iff_eq, hd, if_false, List.countP_singleton]
        omega

/-- How long a text is when another one takes the place of a character. -/
theorem Text.length_substitute (c : Char) (new t : Text) :
    (substitute c new t).length + t.count c = t.length + t.count c * new.length := by
  have hcount := countP_substitute (fun _ => true) c new t
  simpa using hcount

/-- In two texts. -/
theorem Text.substitute_append (c : Char) (new s t : Text) :
    substitute c new (s ++ t) = substitute c new s ++ substitute c new t :=
  List.flatMap_append

/-- A character in its own place. -/
theorem Text.substitute_self (c : Char) (t : Text) : substitute c [c] t = t := by
  induction t with
  | nil => rfl
  | cons d t ih =>
      rw [substitute_cons, ih]
      by_cases hd : d = c <;> simp [hd]

namespace Selector

/-! ### Composition with strings left alone -/

/-- A piece with the outer selector in the place of `&`. A string stays as it
is. -/
def filled (outer : Text) : Piece → Text
  | .string s => s
  | p => Text.substitute '&' outer p.text

/-- An `&` stands outside the strings of a branch. -/
def HasParent (branch : Text) : Prop := ∃ p ∈ pieces branch, p.string? = none ∧ '&' ∈ p.text

instance (branch : Text) : Decidable (HasParent branch) :=
  inferInstanceAs (Decidable (∃ p ∈ pieces branch, _))

/-- One branch inside one outer selector: the outer selector takes the place of
every `&` outside strings, and if there is none, the branch is its descendant. -/
def nestApart (outer branch : Text) : Text :=
  if HasParent branch then (pieces branch).flatMap (filled outer) else outer ++ ' ' :: branch

/-- Replacing `&` in the strings as well makes the text longer by as much as the
outer selector is longer than `&`. -/
theorem length_filled (outer : Text) (ps : List Piece) :
    (ps.flatMap (filled outer)).length + (stringsOf ps).flatten.count '&' * outer.length
      = (Text.substitute '&' outer (textOf ps)).length + (stringsOf ps).flatten.count '&' := by
  induction ps with
  | nil => simp [stringsOf, textOf, Text.substitute]
  | cons p ps ih =>
      rw [List.flatMap_cons, textOf_cons, Text.substitute_append, List.length_append,
        List.length_append]
      cases p with
      | string s =>
          have hlength := Text.length_substitute '&' outer s
          simp only [stringsOf_string, List.flatten_cons, List.count_append, Nat.add_mul, filled,
            Piece.text]
          omega
      | plain c =>
          simp only [stringsOf_plain, filled]
          omega
      | comment s =>
          simp only [stringsOf_comment, filled]
          omega

/-- Without an `&` in the strings there is no difference. -/
theorem flatMap_filled {outer : Text} {ps : List Piece} (h : ∀ s ∈ stringsOf ps, '&' ∉ s) :
    ps.flatMap (filled outer) = Text.substitute '&' outer (textOf ps) := by
  induction ps with
  | nil => rfl
  | cons p ps ih =>
      rw [List.flatMap_cons, textOf_cons, Text.substitute_append]
      cases p with
      | string s =>
          rw [stringsOf_string, List.forall_mem_cons] at h
          rw [ih h.2, filled, Piece.text, substitute_eq_self h.1]
      | plain c =>
          rw [ih h]
          rfl
      | comment s =>
          rw [ih h]
          rfl

/-- With `&` in its own place a branch stays as it is. -/
theorem flatMap_filled_self (t : Text) : (pieces t).flatMap (filled ['&']) = t := by
  have hfilled : filled ['&'] = Piece.text := by
    funext p
    cases p with
    | string s => rfl
    | plain c => exact Text.substitute_self '&' [c]
    | comment s => exact Text.substitute_self '&' s
  rw [hfilled]
  exact text_pieces t

/-- An `&` at the front stands outside strings. -/
theorem hasParent_of_head? {branch : Text} (h : branch.head? = some '&') : HasParent branch := by
  obtain ⟨rest, rfl⟩ := List.head?_eq_some_iff.mp h
  refine ⟨.plain '&', ?_, rfl, List.mem_singleton_self _⟩
  rw [pieces_cons (by decide) (by decide)]
  exact List.mem_cons_self

/-- An `&` of a branch stands outside its strings or in one of them. -/
theorem mem_branch_iff {branch : Text} :
    '&' ∈ branch ↔ HasParent branch ∨ ∃ s ∈ strings branch, '&' ∈ s := by
  have htext : '&' ∈ branch ↔ ∃ p ∈ pieces branch, '&' ∈ p.text := by
    conv_lhs => rw [← text_pieces branch]
    exact List.mem_flatMap
  rw [htext]
  constructor
  · rintro ⟨p, hp, hmem⟩
    cases hstring : p.string? with
    | none => exact .inl ⟨p, hp, hstring, hmem⟩
    | some s =>
        obtain rfl := string?_eq_some.mp hstring
        exact .inr ⟨s, mem_strings.mpr hp, hmem⟩
  · rintro (⟨p, hp, -, hmem⟩ | ⟨s, hs, hmem⟩)
    · exact ⟨p, hp, hmem⟩
    · exact ⟨.string s, mem_strings.mp hs, hmem⟩

section

variable {outer branch : Text}

/-- With an `&` in a string and another one outside, only `&` itself can be put in
so that the string stays. -/
theorem eq_of_filled (hquoted : ∃ s ∈ strings branch, '&' ∈ s)
    (h : Text.substitute '&' outer branch = (pieces branch).flatMap (filled outer)) :
    outer = ['&'] := by
  obtain ⟨s, hs, hmem⟩ := hquoted
  have hflatten : '&' ∈ (stringsOf (pieces branch)).flatten := List.mem_flatten.mpr ⟨s, hs, hmem⟩
  have hpos := List.count_pos_iff.mpr hflatten
  -- The lengths leave room for one character.
  have hlength : outer.length = 1 := by
    have hfilled := length_filled outer (pieces branch)
    rw [text_pieces, h, Nat.add_left_cancel_iff] at hfilled
    exact Nat.eq_of_mul_eq_mul_left hpos (hfilled.trans (Nat.mul_one _).symm)
  obtain ⟨c, rfl⟩ := List.length_eq_one_iff.mp hlength
  -- The sign in the string is still there, so it is what was put in.
  have hkept : '&' ∈ Text.substitute '&' [c] branch := by
    rw [h]
    exact List.mem_flatMap.mpr ⟨.string s, mem_strings.mp hs, hmem⟩
  obtain ⟨d, -, hd⟩ := List.mem_flatMap.mp hkept
  split at hd
  · rw [← List.mem_singleton.mp hd]
  · rename_i hne
    rw [← List.mem_singleton.mp hd] at hne
    exact absurd rfl hne

/-- With an `&` in its strings only, a branch is never taken for a descendant. -/
theorem substitute_ne_append (hhead : ∀ c ∈ branch.head?, isBlank c = false ∧ c ≠ '&')
    (hmem : '&' ∈ branch) : Text.substitute '&' outer branch ≠ outer ++ ' ' :: branch := by
  intro h
  obtain ⟨c, rest, rfl⟩ := List.exists_cons_of_ne_nil (List.ne_nil_of_mem hmem)
  obtain ⟨hblank, hamp⟩ := hhead c rfl
  have hspace : c ≠ ' ' := by
    rintro rfl
    cases hblank
  -- The text begins with the first character of the branch, and so does the outer selector.
  have hfirst : Text.substitute '&' outer (c :: rest) = c :: Text.substitute '&' outer rest := by
    rw [Text.substitute_cons, if_neg (by simpa using hamp)]
    rfl
  have houter : c ∈ outer := by
    cases outer with
    | nil =>
        rw [hfirst] at h
        exact absurd (List.cons.inj h).1 hspace
    | cons d outer =>
        rw [hfirst] at h
        rw [(List.cons.inj h).1]
        exact List.mem_cons_self
  -- That character comes with every replacement, so there is one replacement.
  have hone : (c :: rest).count '&' = 1 := by
    have hothers := Text.countP_substitute (fun d => d != '&' && d != ' ') '&' outer (c :: rest)
    have hpos : 0 < outer.countP fun d => d != '&' && d != ' ' :=
      List.countP_pos_iff.mpr ⟨c, houter, by simp [hamp, hspace]⟩
    rw [h, List.countP_append, List.countP_cons_of_neg (by decide), if_neg (by decide),
      Nat.mul_zero, Nat.add_zero] at hothers
    refine Nat.eq_of_mul_eq_mul_right hpos ?_
    rw [Nat.one_mul]
    omega
  -- But then an `&` is missing.
  have hamps := Text.countP_substitute (· == '&') '&' outer (c :: rest)
  rw [h, List.countP_append, List.countP_cons_of_neg (by decide), hone, if_pos (by decide)] at hamps
  omega

/-- A branch that begins with something else than a blank comes out as if strings
were left alone exactly if its strings have no `&`, or `&` is put in for `&`. -/
theorem nest_eq_iff (hhead : ∀ c ∈ branch.head?, isBlank c = false) :
    nest outer branch = nestApart outer branch
      ↔ (∀ s ∈ strings branch, '&' ∉ s) ∨ (outer = ['&'] ∧ HasParent branch) := by
  by_cases hquoted : ∃ s ∈ strings branch, '&' ∈ s
  · -- An `&` in a string is replaced, which can only go unnoticed if it is replaced by itself.
    have hmem : '&' ∈ branch := mem_branch_iff.mpr (.inr hquoted)
    have hnest : nest outer branch = Text.substitute '&' outer branch :=
      if_pos (List.contains_iff_mem.mpr hmem)
    have hnot : ¬ ∀ s ∈ strings branch, '&' ∉ s := by simpa using hquoted
    rw [hnest]
    by_cases hparent : HasParent branch
    · rw [nestApart, if_pos hparent]
      constructor
      · exact fun h => .inr ⟨eq_of_filled hquoted h, hparent⟩
      · rintro (h | ⟨rfl, -⟩)
        · exact absurd h hnot
        · rw [Text.substitute_self, flatMap_filled_self]
    · rw [nestApart, if_neg hparent]
      constructor
      · -- Without an `&` outside strings the outer selector
        -- would have to stand in front, with a blank.
        intro h
        refine absurd h (substitute_ne_append (fun c hc => ⟨hhead c hc, ?_⟩) hmem)
        rintro rfl
        exact hparent (hasParent_of_head? hc)
      · rintro (h | ⟨-, h⟩)
        · exact absurd h hnot
        · exact absurd h hparent
  · -- Otherwise an `&` of the branch stands outside its strings, and both do the same.
    have hnone : ∀ s ∈ strings branch, '&' ∉ s := by simpa using hquoted
    refine iff_of_true ?_ (.inl hnone)
    have hcontains : List.contains branch '&' = true ↔ HasParent branch := by
      rw [List.contains_iff_mem, mem_branch_iff, or_iff_left hquoted]
    by_cases hparent : HasParent branch
    · rw [nest, if_pos (hcontains.mpr hparent), nestApart, if_pos hparent, flatMap_filled hnone,
        text_pieces]
    · rw [nest, if_neg (hcontains.not.mpr hparent), nestApart, if_neg hparent]

end

/-! ### Headers -/

/-- Two ways to treat every pair agree on all of them together only if they agree on
every pair. -/
theorem flatMap_map_eq_iff {outer inner : List Text} {f g : Text → Text → Text} :
    (outer.flatMap fun a => inner.map (f a)) = (outer.flatMap fun a => inner.map (g a))
      ↔ ∀ a ∈ outer, ∀ b ∈ inner, f a b = g a b := by
  induction outer with
  | nil => simp
  | cons a outer ih =>
      rw [List.flatMap_cons, List.flatMap_cons, List.forall_mem_cons, ← ih, ← List.map_inj_left]
      constructor
      · intro h
        exact List.append_inj h (by rw [List.length_map, List.length_map])
      · rintro ⟨hfirst, hothers⟩
        rw [hfirst, hothers]

/-- A branch begins with no blank, since it is trimmed. -/
theorem isBlank_head_branch {header branch : Text} (h : branch ∈ branches header) :
    ∀ c ∈ branch.head?, isBlank c = false := by
  rw [branches, List.mem_filter, List.mem_map] at h
  obtain ⟨⟨part, -, rfl⟩, -⟩ := h
  exact (Text.hasEnds_trim part).1

/-- The selectors of a header are the pairs of an outer selector and a branch, the
outer ones varying slowest. Below some outer selectors and with closed strings in
the header, the strings of the branches are those of the header, and strings are
left alone in every selector exactly if no string of a branch has an `&` in it,
unless the outer selector is `&` and the branch has one outside its strings. -/
theorem compose_opaque_iff {outer : List Text} (hne : outer ≠ []) {header : Text}
    (hclosed : StringsClosed header) :
    (branches header).flatMap strings = strings header
      ∧ (compose outer header = (outer.flatMap fun a => (branches header).map (nestApart a))
        ↔ ∀ a ∈ outer, ∀ branch ∈ branches header,
          (∀ s ∈ strings branch, '&' ∉ s) ∨ (a = ['&'] ∧ HasParent branch)) := by
  refine ⟨flatMap_strings_branches hclosed, ?_⟩
  rw [compose, if_neg (by simpa using hne), flatMap_map_eq_iff]
  constructor
  · intro h a ha branch hbranch
    exact (nest_eq_iff (isBlank_head_branch hbranch)).mp (h a ha branch hbranch)
  · intro h a ha branch hbranch
    exact (nest_eq_iff (isBlank_head_branch hbranch)).mpr (h a ha branch hbranch)

/-- Commas, brackets, comment marks and quotes in strings, with `&` in front of
them, behind them, in a comment and not at all; and `&` below itself. -/
theorem compose_opaque_attributes :
    let outer := [".p".toList, "#q > r".toList]
    let header := "&[x=\",]'/*\"] &, , a[y='\\'(,']:not(&/*&*/),\n [z=\")\x7d\"]".toList
    compose outer header = (outer.flatMap fun a => (branches header).map (nestApart a))
      ∧ compose outer header =
        [".p[x=\",]'/*\"] .p".toList,
          "a[y='\\'(,']:not(.p/*.p*/)".toList,
          ".p [z=\")\x7d\"]".toList,
          "#q > r[x=\",]'/*\"] #q > r".toList,
          "a[y='\\'(,']:not(#q > r/*#q > r*/)".toList,
          "#q > r [z=\")\x7d\"]".toList]
      ∧ compose [['&']] "&[x=\"&\"]".toList = ["&[x=\"&\"]".toList]
      ∧ [nestApart ['&'] "&[x=\"&\"]".toList] = ["&[x=\"&\"]".toList] := by
  intro outer header
  have hclosed : StringsClosed header ∧ StringsClosed "&[x=\"&\"]".toList := by decide +kernel
  have hbelow : compose [['&']] "&[x=\"&\"]".toList = ["&[x=\"&\"]".toList] := by decide +kernel
  refine ⟨(compose_opaque_iff (by decide) hclosed.1).2.mpr (by decide +kernel), by decide +kernel,
    hbelow, ?_⟩
  have hself := (compose_opaque_iff (List.cons_ne_nil ['&'] []) hclosed.2).2.mpr
    (by decide +kernel)
  rw [← hbelow, hself]
  decide +kernel

/-- The value of an attribute is changed, and the branch is not taken for a
descendant, though the `&` is in a string. With another one outside, both are
replaced. -/
theorem compose_altered :
    StringsClosed "a[x=\"&\"]".toList
      ∧ compose [".p".toList] "a[x=\"&\"]".toList = ["a[x=\".p\"]".toList]
      ∧ nestApart ".p".toList "a[x=\"&\"]".toList = ".p a[x=\"&\"]".toList
      ∧ compose [".p".toList] "&[x=\"&\"]".toList = [".p[x=\".p\"]".toList]
      ∧ nestApart ".p".toList "&[x=\"&\"]".toList = ".p[x=\"&\"]".toList := by
  decide +kernel

end Selector

end Stylesheet
