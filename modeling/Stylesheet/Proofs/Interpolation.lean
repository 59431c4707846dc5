import Mathlib.Data.List.Basic
import Mathlib.Data.List.Induction
import Mathlib.Data.List.TakeWhile
import Stylesheet.Proofs.Substitution

/-!
# Interpolation fills all placeholders or none

`Placeholder.interpolate` goes over a template twice: once for the names, and
once for the values. What a template is made of is told apart from both. It is
a row of tokens, which are single characters and placeholders of the two forms,
and each of them fits to what follows it (`Leftmost`): where a placeholder
begins, there is no single character, and the name of a short one goes as far as
it can. There is one such row for each template.

`interpolate_exact` tells everything by this row. The error is about the first
placeholder that has no value. Otherwise each token stands for one text, and the
result is these texts one after the other, so nothing in a value is ever looked
at. The names that a template refers to are those of its placeholders, in the
order of first use, and no other name of the table counts.
-/

set_option autoImplicit false

namespace Stylesheet

namespace Placeholder

/-! ### Tokens -/

/-- A stretch of a template. -/
inductive Token where
  /-- A character that is no part of a placeholder. -/
  | char (c : Char)
  /-- A placeholder without braces. -/
  | short (name : Text)
  /-- A placeholder in braces. -/
  | braced (name : Text)
  deriving Repr, DecidableEq

namespace Token

/-- A token as it is written. -/
def text : Token → Text
  | char c => [c]
  | short name => '$' :: name
  | braced name => '{' :: '$' :: (name ++ ['}'])

/-- The name of a placeholder. -/
def name? : Token → Option Text
  | char _ => none
  | short name => some name
  | braced name => some name

/-- What stands for a token: a character for itself, and the value of its name
for a placeholder. -/
def value? (table : Table Text) : Token → Option Text
  | char c => some [c]
  | short name => table.get? name
  | braced name => table.get? name

end Token

/-- A row of tokens as it is written. -/
def spell (tokens : List Token) : Text := tokens.flatMap Token.text

/-- A placeholder of one of the two forms begins here. -/
def Begins (t : Text) : Prop :=
  ∃ name rest, IsName name
    ∧ (t = '{' :: '$' :: (name ++ '}' :: rest) ∨ t = '$' :: (name ++ rest))

/-- Whether a token can stand before some text. -/
def Token.Fits (after : Text) : Token → Prop
  | char c => ¬ Begins (c :: after)
  | short name => IsName name ∧ ∀ c ∈ after.head?, isNameChar c = false
  | braced name => IsName name

/-- Every token fits to what follows it. -/
def Leftmost : List Token → Prop
  | [] => True
  | token :: tokens => token.Fits (spell tokens) ∧ Leftmost tokens

/-- The names of the placeholders, in order. -/
def names (tokens : List Token) : List Text := tokens.filterMap Token.name?

/-! ### The placeholder at the front -/

/-- A name is read as far as its characters go. -/
theorem takeName?_eq_some {t name rest : Text} :
    takeName? t = some (name, rest)
      ↔ IsName name ∧ t = name ++ rest ∧ ∀ c ∈ rest.head?, isNameChar c = false := by
  constructor
  · intro h
    unfold takeName? at h
    split at h
    · cases h
    · rename_i hne
      simp only [Option.some.injEq, Prod.mk.injEq] at h
      obtain ⟨rfl, rfl⟩ := h
      refine ⟨⟨by simpa using hne, fun c hc => List.mem_takeWhile_imp hc⟩,
        List.takeWhile_append_dropWhile.symm, fun c hc => ?_⟩
      have hnot := List.head?_dropWhile_not isNameChar t
      rwa [Option.mem_def.mp hc] at hnot
  · rintro ⟨hname, rfl, hrest⟩
    exact takeName?_append hname hrest

/-- There is none just if no character of a name stands at the front. -/
theorem takeName?_eq_none {t : Text} :
    takeName? t = none ↔ ∀ name rest, IsName name → t ≠ name ++ rest := by
  constructor
  · rintro h name rest hname rfl
    obtain ⟨c, name, rfl⟩ := List.exists_cons_of_ne_nil hname.1
    have hc := hname.2 c List.mem_cons_self
    simp [takeName?, hc] at h
  · intro h
    rw [takeName?, if_pos]
    by_contra hne
    have hname : IsName (t.takeWhile isNameChar) :=
      ⟨by simpa using hne, fun c hc => List.mem_takeWhile_imp hc⟩
    exact h _ _ hname List.takeWhile_append_dropWhile.symm

/-- What is taken off the front is a placeholder of one of the two forms. -/
theorem take?_eq_some {t name rest : Text} :
    take? t = some (name, rest)
      ↔ IsName name ∧ (t = '{' :: '$' :: (name ++ '}' :: rest)
        ∨ t = '$' :: (name ++ rest) ∧ ∀ c ∈ rest.head?, isNameChar c = false) := by
  constructor
  · intro h
    unfold take? at h
    split at h
    · split at h
      · rename_i htake
        cases h
        obtain ⟨hname, rfl, -⟩ := takeName?_eq_some.mp htake
        exact ⟨hname, .inl rfl⟩
      · cases h
    · obtain ⟨hname, rfl, hrest⟩ := takeName?_eq_some.mp h
      exact ⟨hname, .inr ⟨rfl, hrest⟩⟩
    · cases h
  · rintro ⟨hname, rfl | ⟨rfl, hrest⟩⟩
    · rw [take?, takeName?_append hname (by simp; decide)]
      rfl
    · rw [take?, takeName?_append hname hrest]

/-- Nothing is found just if no placeholder begins. -/
theorem take?_eq_none {t : Text} : take? t = none ↔ ¬ Begins t := by
  constructor
  · rintro h ⟨name, rest, hname, rfl | rfl⟩
    · rw [take?_eq_some.mpr ⟨hname, .inl rfl⟩] at h
      cases h
    · rw [take?] at h
      exact takeName?_eq_none.mp h name rest hname rfl
  · intro h
    cases htake : take? t with
    | none => rfl
    | some found =>
        obtain ⟨name, rest⟩ := found
        obtain ⟨hname, hform⟩ := take?_eq_some.mp htake
        exact absurd ⟨name, rest, hname, hform.imp id And.left⟩ h

/-! ### One row of tokens -/

/-- A template has a row of tokens, and it is taken apart at the placeholders
among them. -/
theorem exists_tokens (t : Text) :
    ∃ tokens, spell tokens = t ∧ Leftmost tokens ∧ (cut t).items = names tokens
      ∧ ∀ table : Table Text, (cut t).fill (fun name => (table.get? name).getD [])
          = tokens.flatMap fun token => (token.value? table).getD [] := by
  fun_induction cut t with
  | case1 => exact ⟨[], rfl, trivial, rfl, fun _ => rfl⟩
  | case2 c r name rest h ih =>
      obtain ⟨tokens, rfl, hleft, hitems, hfill⟩ := ih
      -- A placeholder has one of two forms; of the short
      -- one it has to be known where its name ends.
      obtain ⟨hname, hform | ⟨hform, hrest⟩⟩ := take?_eq_some.mp h
      · refine ⟨.braced name :: tokens, ?_, ⟨hname, hleft⟩, ?_, fun table => ?_⟩
        · rw [hform]
          simp [spell, Token.text]
        · rw [Cut.items_item, hitems]
          rfl
        · rw [Cut.fill_item, hfill]
          rfl
      · refine ⟨.short name :: tokens, ?_, ⟨⟨hname, hrest⟩, hleft⟩, ?_, fun table => ?_⟩
        · rw [hform]
          simp [spell, Token.text]
        · rw [Cut.items_item, hitems]
          rfl
        · rw [Cut.fill_item, hfill]
          rfl
  | case3 c r h ih =>
      obtain ⟨tokens, rfl, hleft, hitems, hfill⟩ := ih
      refine ⟨.char c :: tokens, rfl, ⟨take?_eq_none.mp h, hleft⟩, ?_, fun table => ?_⟩
      · rw [Cut.items_prepend, hitems]
        rfl
      · rw [Cut.fill_prepend, hfill]
        rfl

/-- A placeholder at the front of a row is what is taken off its text. -/
theorem take?_spell {token : Token} {tokens : List Token} (h : token.Fits (spell tokens)) :
    take? (spell (token :: tokens)) = token.name?.map fun name => (name, spell tokens) := by
  cases token with
  | char c => exact take?_eq_none.mpr h
  | short name =>
      exact take?_eq_some.mpr ⟨h.1, .inr ⟨rfl, h.2⟩⟩
  | braced name =>
      refine take?_eq_some.mpr ⟨h, .inl ?_⟩
      simp [spell, Token.text]

/-- Two rows of tokens that are written alike are the same. -/
theorem eq_of_spell {tokens tokens' : List Token} (h : Leftmost tokens) (h' : Leftmost tokens')
    (hspell : spell tokens = spell tokens') : tokens = tokens' := by
  have hne : ∀ (token : Token) (tokens : List Token), spell (token :: tokens) ≠ [] := by
    intro token tokens
    cases token <;> simp [spell, Token.text]
  induction tokens generalizing tokens' with
  | nil =>
      cases tokens' with
      | nil => rfl
      | cons token' tokens' => exact absurd hspell.symm (hne token' tokens')
  | cons token tokens ih =>
      cases tokens' with
      | nil => exact absurd hspell (hne token tokens)
      | cons token' tokens' =>
          have htake := take?_spell h.1
          rw [hspell, take?_spell h'.1] at htake
          -- The first tokens are of one form: the text before the name tells them apart.
          have hfirst : token = token' ∧ spell tokens = spell tokens' := by
            cases token with
            | char c =>
                cases token' with
                | char c' => simpa [spell, Token.text] using hspell
                | short name' => cases htake
                | braced name' => cases htake
            | short name =>
                cases token' with
                | char c' => cases htake
                | short name' => simpa [Token.name?, eq_comm] using htake
                | braced name' => simp [spell, Token.text] at hspell
            | braced name =>
                cases token' with
                | char c' => cases htake
                | short name' => simp [spell, Token.text] at hspell
                | braced name' => simpa [Token.name?, eq_comm] using htake
          rw [hfirst.1, ih h.2 h'.2 hfirst.2]

/-! ### Names in order of first use -/

/-- One name more, which is new or not. -/
theorem eraseDups_concat (l : List Text) (a : Text) :
    (l ++ [a]).eraseDups = l.eraseDups ++ if a ∈ l then [] else [a] := by
  rw [List.eraseDups_append]
  congr 1
  by_cases ha : a ∈ l <;> simp [List.removeAll, ha, List.eraseDups_cons]

/-- A search finds the same without the repetitions. -/
theorem find?_eraseDups (p : Text → Bool) (l : List Text) : l.eraseDups.find? p = l.find? p := by
  induction l using List.reverseRecOn with
  | nil => rfl
  | append_singleton l a ih =>
      rw [eraseDups_concat, List.find?_append, List.find?_append, ih]
      by_cases ha : a ∈ l
      · rw [if_pos ha]
        cases hfind : l.find? p with
        | none => simp [List.find?_eq_none.mp hfind a ha]
        | some b => rfl
      · rw [if_neg ha]

/-- Without the repetitions the names stand as they first come. -/
theorem pairwise_eraseDups (l : List Text) :
    l.eraseDups.Pairwise fun a b => l.idxOf a < l.idxOf b := by
  induction l using List.reverseRecOn with
  | nil => exact List.Pairwise.nil
  | append_singleton l a ih =>
      have hfront : l.eraseDups.Pairwise fun b c => (l ++ [a]).idxOf b < (l ++ [a]).idxOf c := by
        refine ih.imp_of_mem fun hb hc hlt => ?_
        rw [List.idxOf_append_of_mem (List.mem_eraseDups.mp hb),
          List.idxOf_append_of_mem (List.mem_eraseDups.mp hc)]
        exact hlt
      rw [eraseDups_concat]
      by_cases ha : a ∈ l
      · rw [if_pos ha, List.append_nil]
        exact hfront
      · rw [if_neg ha]
        refine List.pairwise_append.mpr ⟨hfront, List.pairwise_singleton _ a, fun b hb c hc => ?_⟩
        rw [List.mem_singleton.mp hc, List.idxOf_append_of_mem (List.mem_eraseDups.mp hb),
          List.idxOf_append_of_notMem ha]
        have hlt := List.idxOf_lt_length_of_mem (List.mem_eraseDups.mp hb)
        omega

/-! ### Filling a row -/

section

variable {table : Table Text} {tokens : List Token}

/-- Every name has a value just if every token has one. -/
theorem forall_names_iff :
    (∀ name ∈ names tokens, table.get? name ≠ none)
      ↔ ∀ token ∈ tokens, token.value? table ≠ none := by
  constructor
  · intro h token htoken
    cases token with
    | char c => simp [Token.value?]
    | short name => exact h name (List.mem_filterMap.mpr ⟨_, htoken, rfl⟩)
    | braced name => exact h name (List.mem_filterMap.mpr ⟨_, htoken, rfl⟩)
  · intro h name hname
    obtain ⟨token, htoken, hname⟩ := List.mem_filterMap.mp hname
    have hvalue := h token htoken
    cases token with
    | char c => cases hname
    | short name' => rwa [← Option.some.inj hname]
    | braced name' => rwa [← Option.some.inj hname]

/-- Tables that agree on the names agree on the tokens. -/
theorem value?_congr {table' : Table Text}
    (h : ∀ name ∈ names tokens, table.get? name = table'.get? name) {token : Token}
    (htoken : token ∈ tokens) : token.value? table = token.value? table' := by
  cases token with
  | char c => rfl
  | short name => exact h name (List.mem_filterMap.mpr ⟨_, htoken, rfl⟩)
  | braced name => exact h name (List.mem_filterMap.mpr ⟨_, htoken, rfl⟩)

/-- If each name has a value, there is one text for each token, and no other. -/
theorem exists_values_iff {out : Text} :
    (∃ values : List Text, tokens.map (Token.value? table) = values.map some ∧ out = values.flatten)
      ↔ (∀ name ∈ names tokens, table.get? name ≠ none)
        ∧ out = tokens.flatMap fun token => (token.value? table).getD [] := by
  rw [forall_names_iff, List.flatMap_def]
  constructor
  · rintro ⟨values, hvalues, rfl⟩
    refine ⟨fun token htoken hnone => ?_, ?_⟩
    · have hmem : none ∈ values.map some := by
        rw [← hvalues]
        exact List.mem_map.mpr ⟨token, htoken, hnone⟩
      simp at hmem
    · have hget := congrArg (List.map fun value => value.getD []) hvalues
      simp only [List.map_map, Function.comp_def, Option.getD_some, List.map_id'] at hget
      rw [hget]
  · rintro ⟨h, rfl⟩
    refine ⟨_, ?_, rfl⟩
    rw [List.map_map]
    refine List.map_congr_left fun token htoken => ?_
    obtain ⟨value, hvalue⟩ := Option.ne_none_iff_exists'.mp (h token htoken)
    simp [hvalue]

end

section

variable {table : Table Text} {t : Text} {tokens : List Token}

/-- Interpolation fails with the first name that has no value. -/
theorem interpolate_eq_error (hitems : (cut t).items = names tokens) {missing : MissingConstant} :
    interpolate table t = .error missing
      ↔ ∃ before after, names tokens = before ++ missing.name :: after
        ∧ table.get? missing.name = none ∧ ∀ name ∈ before, table.get? name ≠ none := by
  -- The first name without a value, and the first one
  -- among the names that are listed once, are the same.
  have hfind : interpolate table t = .error missing
      ↔ (names tokens).find? (fun name => !table.contains name) = some missing.name := by
    rw [interpolate, references, hitems, find?_eraseDups]
    cases (names tokens).find? fun name => !table.contains name with
    | none => simp
    | some name =>
        obtain ⟨name'⟩ := missing
        simp
  rw [hfind, List.find?_eq_some_iff_append]
  constructor
  · rintro ⟨hnone, before, after, hnames, hbefore⟩
    exact ⟨before, after, hnames, by simpa [Table.contains] using hnone,
      fun name hname => by
        simpa [Table.contains, Option.isSome_iff_ne_none] using hbefore name hname⟩
  · rintro ⟨before, after, hnames, hnone, hbefore⟩
    exact ⟨by simpa [Table.contains] using hnone, before, after, hnames,
      fun name hname => by
        simpa [Table.contains, Option.isSome_iff_ne_none] using hbefore name hname⟩

/-- Filling succeeds just if every name has a value, and the result is that of
the tokens. -/
theorem interpolate_eq_ok (hitems : (cut t).items = names tokens)
    (hfill : (cut t).fill (fun name => (table.get? name).getD [])
      = tokens.flatMap fun token => (token.value? table).getD []) {out : Text} :
    interpolate table t = .ok out
      ↔ (∀ name ∈ names tokens, table.get? name ≠ none)
        ∧ out = tokens.flatMap fun token => (token.value? table).getD [] := by
  have hnone : (∀ name ∈ names tokens, table.get? name ≠ none)
      ↔ (names tokens).find? (fun name => !table.contains name) = none := by
    simp [List.find?_eq_none, Table.contains]
  rw [hnone, interpolate, references, hitems, find?_eraseDups, hfill]
  cases (names tokens).find? fun name => !table.contains name with
  | none => simp [eq_comm]
  | some name => simp

end

/-- Interpolation is all or nothing, goes over the template once, and looks at
nothing but the names in it.

A template is made of tokens in one way. The names it refers to are those of its
placeholders, each once and in the order of first use. Interpolation fails if
some placeholder has no value, and then names the first of them. Otherwise each
token stands for one text, and the result is made of these. Two tables that agree
on the names that the template refers to give the same result. -/
theorem interpolate_exact (t : Text) :
    ∃ tokens, (∀ tokens', spell tokens' = t ∧ Leftmost tokens' ↔ tokens' = tokens)
    ∧ ((∀ name, name ∈ references t ↔ name ∈ names tokens) ∧ (references t).Nodup
      ∧ (references t).Pairwise fun a b => (names tokens).idxOf a < (names tokens).idxOf b)
    ∧ (∀ table, (∃ missing, interpolate table t = .error missing)
        ↔ ∃ name ∈ names tokens, table.get? name = none)
    ∧ (∀ table missing, interpolate table t = .error missing
        ↔ ∃ before after, names tokens = before ++ missing.name :: after
          ∧ table.get? missing.name = none ∧ ∀ name ∈ before, table.get? name ≠ none)
    ∧ (∀ table out, interpolate table t = .ok out
        ↔ ∃ values : List Text, tokens.map (Token.value? table) = values.map some
          ∧ out = values.flatten)
    ∧ (∀ table table', (∀ name ∈ references t, table.get? name = table'.get? name) →
        interpolate table t = interpolate table' t) := by
  -- The tokens of the text are those that the cut has found; all else is said by them.
  obtain ⟨tokens, hspell, hleft, hitems, hfill⟩ := exists_tokens t
  have hrefs : references t = (names tokens).eraseDups := by rw [references, hitems]
  have hmem : ∀ name, name ∈ references t ↔ name ∈ names tokens := by simp [hrefs]
  have hpairwise : (references t).Pairwise fun a b =>
      (names tokens).idxOf a < (names tokens).idxOf b := by
    rw [hrefs]
    exact pairwise_eraseDups (names tokens)
  refine ⟨tokens, fun tokens' => ⟨fun h => ?_, ?_⟩, ⟨hmem, ?_, hpairwise⟩, fun table => ?_,
    fun table missing => ?_, fun table out => ?_, fun table table' hagree => ?_⟩
  · exact eq_of_spell h.2 hleft (h.1.trans hspell.symm)
  · rintro rfl
    exact ⟨hspell, hleft⟩
  · refine hpairwise.imp ?_
    rintro a _ hlt rfl
    exact Nat.lt_irrefl _ hlt
  · constructor
    · rintro ⟨missing, hmissing⟩
      obtain ⟨before, after, hnames, hnone, -⟩ := (interpolate_eq_error hitems).mp hmissing
      exact ⟨missing.name, by simp [hnames], hnone⟩
    · rintro ⟨name, hname, hnone⟩
      cases hresult : interpolate table t with
      | error missing => exact ⟨missing, rfl⟩
      | ok out =>
          have hvalues := ((interpolate_eq_ok hitems (hfill table)).mp hresult).1
          exact absurd hnone (hvalues name hname)
  · exact interpolate_eq_error hitems
  · rw [interpolate_eq_ok hitems (hfill table), exists_values_iff]
  · -- Whatever the second table gives, the first gives it too.
    simp only [hmem] at hagree
    cases hresult : interpolate table' t with
    | error missing =>
        obtain ⟨before, after, hnames, hnone, hbefore⟩ := (interpolate_eq_error hitems).mp hresult
        refine (interpolate_eq_error hitems).mpr ⟨before, after, hnames, ?_, fun name hname => ?_⟩
        · rw [hagree _ (by simp [hnames]), hnone]
        · rw [hagree name (by simp [hnames, hname])]
          exact hbefore name hname
    | ok out =>
        obtain ⟨hvalues, rfl⟩ := (interpolate_eq_ok hitems (hfill table')).mp hresult
        refine (interpolate_eq_ok hitems (hfill table)).mpr ⟨fun name hname => ?_, ?_⟩
        · rw [hagree name hname]
          exact hvalues name hname
        · rw [List.flatMap_def, List.flatMap_def]
          congr 1
          refine List.map_congr_left fun token htoken => ?_
          rw [value?_congr hagree htoken]

end Placeholder

end Stylesheet
