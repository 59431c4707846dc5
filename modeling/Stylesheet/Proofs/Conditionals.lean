import Stylesheet.Condition.Resolve
import Stylesheet.Proofs.Collapse
import Stylesheet.Proofs.Unquoted

/-!
# Conditionals mean what their nesting says

`Conditional.resolve` rewrites a text from left to right: it puts the
branch that a condition selects in the place of the conditional and goes on
at the start of that branch. The meaning of nested conditionals is told
over a tree instead, a `Template`: each conditional stands for the meaning
of its selected branch, trimmed first. `resolve_meaning` says that the two
agree, and that the error of a missing operator is about the first
condition that is met without one.

What is met is `met`: the conditions on selected paths, in the order of the
document. The branch that is not selected is not in it, so nothing inside
of it can fail.

The step from text to tree is `resolveFrom_conditional`. Splicing a branch
into a text is appending templates, which is why the induction goes by the
size of a template and not along its tree.
-/

set_option autoImplicit false

namespace Stylesheet

open Text

namespace Condition

/-- An operator stands somewhere in the expression. -/
def HasOperator (e : Text) : Prop := ∃ op ∈ Operator.all, op.symbol <:+: e

instance (e : Text) : Decidable (HasOperator e) :=
  inferInstanceAs (Decidable (∃ op ∈ Operator.all, op.symbol <:+: e))

/-- Whether the comparison in an expression holds. -/
def truth (e : Text) : Bool :=
  match parse e with
  | .ok (some c) => c.holds
  | _ => false

/-- A text goes on after a front just if it begins with it. -/
theorem isSome_after? (front t : Text) : (after? front t).isSome = front.isPrefixOf t := by
  fun_induction after? front t <;> grind [List.isPrefixOf]

/-- An operator is taken from the front of a text where one stands. -/
theorem isSome_take? (t : Text) :
    (Operator.take? t).isSome = true ↔ ∃ op ∈ Operator.all, op.symbol <+: t := by
  simp [Operator.take?, isSome_after?]

/-- The characters of a condition that is read character by character: no
quotes, and one byte each. -/
def IsPlain (e : Text) : Prop := ∀ c ∈ e, isQuote c = false ∧ c.toNat < 128

/-- An operator stands at the first character or further on. -/
theorem hasOperator_cons {c : Char} {r : Text} :
    HasOperator (c :: r) ↔ (Operator.take? (c :: r)).isSome = true ∨ HasOperator r := by
  rw [isSome_take?]
  simp only [HasOperator, List.infix_cons_iff]
  grind

/-- A condition is read to its first operator, or there is none. Plain
conditions are meant: a quote would hide what is inside, and the reader, which
goes on byte by byte, would stop in a wider character. -/
theorem parseFrom_cases {seen e : Text} (he : IsPlain e) :
    (HasOperator e ∧ ∃ c, parseFrom none seen e = .ok (some c))
    ∨ (¬ HasOperator e ∧ parseFrom none seen e = .ok none) := by
  induction e generalizing seen with
  | nil =>
      refine .inr ⟨?_, rfl⟩
      simp [HasOperator, Operator.all, Operator.symbol]
  | cons c r ih =>
      obtain ⟨⟨hquote, hascii⟩, hr⟩ := List.forall_mem_cons.mp he
      -- The reader goes on byte by byte, and would stop inside a wider character.
      have hsize : c.utf8Size = 1 := by
        rw [Char.utf8Size_eq_one_iff, UInt32.le_iff_toNat_le]
        exact Nat.le_of_lt_succ hascii
      rw [hasOperator_cons, parseFrom]
      cases htake : Operator.take? (c :: r) with
      | some found => simp [hquote]
      | none => simpa [hquote, hsize] using ih hr

end Condition

namespace Conditional

open Condition (HasOperator truth)

/-! ### Templates -/

/-- The head of a conditional, as it is written. -/
def headOf (e : Text) : Text := "@if(".toList ++ (e ++ [')'])

/-- What stands between the two branches. -/
def elseMark : Text := " @else ".toList

/-- The head as a list of characters, for rewriting. -/
theorem headOf_eq (e : Text) : headOf e = '@' :: 'i' :: 'f' :: '(' :: (e ++ [')']) := by
  have hopening : "@if(".toList = ['@', 'i', 'f', '('] := by decide +kernel
  unfold headOf
  rw [hopening]
  rfl

/-- The mark as a list of characters, for rewriting. -/
theorem elseMark_eq : elseMark = [' ', '@', 'e', 'l', 's', 'e', ' '] := by decide +kernel

/-- A text made of pieces and conditionals, without and with an `@else`,
whose branches are templates again. -/
inductive Template where
  | done
  | text (t : Text) (rest : Template)
  | when (e : Text) (yes rest : Template)
  | choice (e : Text) (yes no rest : Template)

namespace Template

/-- The template as it is written. -/
def write : Template → Text
  | done => []
  | text t rest => t ++ rest.write
  | when e yes rest => headOf e ++ '{' :: (yes.write ++ '}' :: rest.write)
  | choice e yes no rest =>
    headOf e ++ '{' :: (yes.write ++ '}' :: (elseMark ++ '{' :: (no.write ++ '}' :: rest.write)))

/-- A condition has no quotes, parentheses, braces, `@` and slashes, and no
characters beyond ASCII. -/
def IsCondition (e : Text) : Prop :=
  FreeOf ('(' :: ')' :: '{' :: '}' :: '@' :: literalMarks) e ∧ ∀ c ∈ e, c.toNat < 128

instance (e : Text) : Decidable (IsCondition e) :=
  decidable_of_iff (FreeOf ('(' :: ')' :: '{' :: '}' :: '@' :: literalMarks) e
      ∧ (e.all fun c => c.toNat < 128) = true) (by simp [IsCondition])

/-- Pieces of text have no `@`, no quotes and no slashes, and branches are
balanced. -/
def WellFormed : Template → Prop
  | done => True
  | text t rest => FreeOf ('@' :: literalMarks) t ∧ rest.WellFormed
  | when e yes rest =>
    IsCondition e ∧ (Balanced yes.write ∧ yes.WellFormed) ∧ rest.WellFormed
  | choice e yes no rest =>
    IsCondition e ∧ (Balanced yes.write ∧ yes.WellFormed) ∧ (Balanced no.write ∧ no.WellFormed)
      ∧ rest.WellFormed

instance decidableWellFormed : (T : Template) → Decidable T.WellFormed
  | done => inferInstanceAs (Decidable True)
  | text t rest =>
    have := decidableWellFormed rest
    inferInstanceAs (Decidable (FreeOf ('@' :: literalMarks) t ∧ rest.WellFormed))
  | when e yes rest =>
    have := decidableWellFormed yes
    have := decidableWellFormed rest
    inferInstanceAs (Decidable
      (IsCondition e ∧ (Balanced yes.write ∧ yes.WellFormed) ∧ rest.WellFormed))
  | choice e yes no rest =>
    have := decidableWellFormed yes
    have := decidableWellFormed no
    have := decidableWellFormed rest
    inferInstanceAs (Decidable
      (IsCondition e ∧ (Balanced yes.write ∧ yes.WellFormed) ∧ (Balanced no.write ∧ no.WellFormed)
        ∧ rest.WellFormed))

/-- How many pieces and conditionals there are, at all depths. -/
def size : Template → Nat
  | done => 0
  | text _ rest => rest.size + 1
  | when _ yes rest => yes.size + rest.size + 1
  | choice _ yes no rest => yes.size + no.size + rest.size + 1

/-! ### Trimming -/

/-- The template without the blanks at its start. -/
def trimStart : Template → Template
  | text t rest => if Text.blank t then rest.trimStart else text (Text.trimStart t) rest
  | T => T

/-- The template without the blanks at its end. -/
def trimEnd : Template → Template
  | done => done
  | text t rest =>
    if Text.blank rest.write then text (Text.trimEnd t) done else text t rest.trimEnd
  | when e yes rest => when e yes rest.trimEnd
  | choice e yes no rest => choice e yes no rest.trimEnd

/-- The template without the blanks at both ends. -/
def trim (T : Template) : Template := T.trimStart.trimEnd

/-- Trimming the start does not make a template bigger. -/
theorem size_trimStart_le (T : Template) : T.trimStart.size ≤ T.size := by
  induction T with
  | text t rest ih =>
      rw [trimStart]
      split
      · exact Nat.le_succ_of_le ih
      · exact Nat.le_refl _
  | _ => exact Nat.le_refl _

/-- Trimming the end does not make a template bigger. -/
theorem size_trimEnd_le (T : Template) : T.trimEnd.size ≤ T.size := by
  induction T with
  | done => exact Nat.le_refl _
  | text t rest ih =>
      rw [trimEnd]
      split
      · simp [size]
      · simpa [size] using ih
  | when e yes rest _ ih => simpa [trimEnd, size] using ih
  | choice e yes no rest _ _ ih => simpa [trimEnd, size] using ih

/-- Trimming does not make a template bigger. So a branch that is trimmed is
still smaller than its conditional, and `meaning` may recurse on it. -/
theorem size_trim_le (T : Template) : T.trim.size ≤ T.size :=
  Nat.le_trans (size_trimEnd_le _) (size_trimStart_le T)

/-! ### The meaning of a template -/

/-- The text that a template stands for. -/
def meaning : Template → Text
  | done => []
  | text t rest => t ++ rest.meaning
  | when e yes rest => (if truth e then yes.trim.meaning else []) ++ rest.meaning
  | choice e yes no rest =>
    (if truth e then yes.trim.meaning else no.trim.meaning) ++ rest.meaning
termination_by T => T.size
decreasing_by
  all_goals simp only [size]
  · omega
  · have := size_trim_le yes
    omega
  · omega
  · have := size_trim_le yes
    omega
  · have := size_trim_le no
    omega
  · omega

/-- The conditions on selected paths, in the order of the document. -/
def met : Template → List Text
  | done => []
  | text _ rest => rest.met
  | when e yes rest => e :: ((if truth e then yes.met else []) ++ rest.met)
  | choice e yes no rest => e :: ((if truth e then yes.met else no.met) ++ rest.met)

/-- The first condition on a selected path that has no operator. -/
def firstBare? (T : Template) : Option Text := T.met.find? fun e => !decide (HasOperator e)

/-! ### Templates behind one another -/

/-- One template behind another. -/
def append : Template → Template → Template
  | done, T => T
  | text t rest, T => text t (rest.append T)
  | when e yes rest, T => when e yes (rest.append T)
  | choice e yes no rest, T => choice e yes no (rest.append T)

/-- Two templates are written one behind the other. -/
@[simp] theorem write_append (T U : Template) : (T.append U).write = T.write ++ U.write := by
  induction T with
  | done => rfl
  | text t rest ih => simp [append, write, ih]
  | when e yes rest _ ih => simp [append, write, ih]
  | choice e yes no rest _ _ ih => simp [append, write, ih]

/-- The size of two templates one behind the other. -/
theorem size_append (T U : Template) : (T.append U).size = T.size + U.size := by
  induction T with
  | done => simp [append, size]
  | text t rest ih => simp only [append, size, ih]; omega
  | when e yes rest _ ih => simp only [append, size, ih]; omega
  | choice e yes no rest _ _ ih => simp only [append, size, ih]; omega

/-- Two templates mean the one and then the other: no conditional reaches from
one into the other. -/
theorem meaning_append (T U : Template) : (T.append U).meaning = T.meaning ++ U.meaning := by
  induction T with
  | done => simp [append, meaning]
  | text t rest ih => simp [append, meaning, ih]
  | when e yes rest _ ih => simp [append, meaning, ih]
  | choice e yes no rest _ _ ih => simp [append, meaning, ih]

/-- The conditions of the first template are met first. -/
theorem met_append (T U : Template) : (T.append U).met = T.met ++ U.met := by
  induction T with
  | done => rfl
  | text t rest ih => simp [append, met, ih]
  | when e yes rest _ ih => simp [append, met, ih]
  | choice e yes no rest _ _ ih => simp [append, met, ih]

/-- Two templates that are well formed, one behind the other. -/
theorem WellFormed.append {T U : Template} (hT : T.WellFormed) (hU : U.WellFormed) :
    (T.append U).WellFormed := by
  induction T with
  | done => exact hU
  | text t rest ih => exact ⟨hT.1, ih hT.2⟩
  | when e yes rest _ ih => exact ⟨hT.1, hT.2.1, ih hT.2.2⟩
  | choice e yes no rest _ _ ih => exact ⟨hT.1, hT.2.1, hT.2.2.1, ih hT.2.2.2⟩

/-! ### What trimming does -/

/-- A conditional is not blank, whatever follows it. -/
theorem blank_headOf (e rest : Text) : Text.blank (headOf e ++ rest) = false := by
  rw [headOf_eq]
  rfl

/-- Blanks behind a brace are trimmed up to the brace. -/
theorem trimEnd_brace (s t : Text) :
    Text.trimEnd (s ++ '}' :: t) = s ++ '}' :: Text.trimEnd t := by
  have hbrace : ∀ u : Text, Text.blank ('}' :: u) = false := fun _ => rfl
  rw [trimEnd_append_of_not_blank (hbrace t)]
  -- Either all behind the brace goes, or something that is not blank holds the rest.
  by_cases ht : Text.blank t = true
  · have hnil : Text.trimEnd t = [] := by
      have htrim := trimEnd_append ht []
      exact htrim
    have hone := trimEnd_append ht ['}']
    rw [List.singleton_append] at hone
    rw [hone, hnil]
    rfl
  · have hone := trimEnd_append_of_not_blank (Bool.eq_false_iff.mpr ht) ['}']
    rw [List.singleton_append] at hone
    rw [hone]
    rfl

/-- Trimming the start of a template is trimming the start of what is written.
Pieces that are blank are dropped as a whole until one is not. -/
theorem write_trimStart (T : Template) : T.trimStart.write = Text.trimStart T.write := by
  induction T with
  | done => rfl
  | text t rest ih =>
      rw [trimStart, write]
      by_cases ht : Text.blank t = true
      · rw [if_pos ht, ih, trimStart_append ht]
      · rw [if_neg ht, write, trimStart_append_of_not_blank (Bool.eq_false_iff.mpr ht)]
  | when e yes rest _ _ =>
      show (when e yes rest).write = Text.trimStart (when e yes rest).write
      rw [trimStart_eq_self]
      rw [write, headOf_eq]
      simp [isBlank]
  | choice e yes no rest _ _ _ =>
      show (choice e yes no rest).write = Text.trimStart (choice e yes no rest).write
      rw [trimStart_eq_self]
      rw [write, headOf_eq]
      simp [isBlank]

/-- The same at the end, where a piece is dropped if only blanks are written
behind it. -/
theorem write_trimEnd (T : Template) : T.trimEnd.write = Text.trimEnd T.write := by
  induction T with
  | done => rfl
  | text t rest ih =>
      rw [trimEnd, write]
      by_cases hrest : Text.blank rest.write = true
      · rw [if_pos hrest, trimEnd_append hrest]
        simp [write]
      · rw [if_neg hrest, write, ih, trimEnd_append_of_not_blank (Bool.eq_false_iff.mpr hrest)]
  | when e yes rest _ ih =>
      have hsplit := trimEnd_brace (headOf e ++ '{' :: yes.write) rest.write
      simp only [trimEnd, write, ih]
      simpa using hsplit.symm
  | choice e yes no rest _ _ ih =>
      have hsplit := trimEnd_brace
        (headOf e ++ '{' :: (yes.write ++ '}' :: (elseMark ++ '{' :: no.write))) rest.write
      simp only [trimEnd, write, ih]
      simpa using hsplit.symm

/-- Trimming a template is trimming what is written. -/
theorem write_trim (T : Template) : T.trim.write = Text.trim T.write := by
  rw [trim, write_trimEnd, write_trimStart]
  rfl

/-- Trimming the start keeps a template well formed. -/
theorem WellFormed.trimStart {T : Template} (hT : T.WellFormed) : T.trimStart.WellFormed := by
  induction T with
  | text t rest ih =>
      rw [Template.trimStart]
      split
      · exact ih hT.2
      · exact ⟨hT.1.of_subset (List.dropWhile_suffix isBlank).subset, hT.2⟩
  | _ => exact hT

/-- Trimming the end keeps a template well formed. -/
theorem WellFormed.trimEnd {T : Template} (hT : T.WellFormed) : T.trimEnd.WellFormed := by
  induction T with
  | done => exact hT
  | text t rest ih =>
      rw [Template.trimEnd]
      split
      · refine ⟨hT.1.of_subset ?_, trivial⟩
        have hsuffix := List.dropWhile_suffix (l := t.reverse) isBlank
        rw [Text.trimEnd]
        exact fun c hc => List.mem_reverse.mp (hsuffix.subset (List.mem_reverse.mp hc))
      · exact ⟨hT.1, ih hT.2⟩
  | when e yes rest _ ih => exact ⟨hT.1, hT.2.1, ih hT.2.2⟩
  | choice e yes no rest _ _ ih => exact ⟨hT.1, hT.2.1, hT.2.2.1, ih hT.2.2.2⟩

/-- Trimming keeps a template well formed. -/
theorem WellFormed.trim {T : Template} (hT : T.WellFormed) : T.trim.WellFormed :=
  hT.trimStart.trimEnd

/-- Where only blanks are written, there is no conditional. -/
theorem met_of_blank {T : Template} (h : Text.blank T.write = true) : T.met = [] := by
  induction T with
  | done => rfl
  | text t rest ih =>
      rw [write, blank_append, Bool.and_eq_true] at h
      exact ih h.2
  | when e yes rest _ _ =>
      rw [write, blank_headOf] at h
      cases h
  | choice e yes no rest _ _ _ =>
      rw [write, blank_headOf] at h
      cases h

/-- No condition is lost with the blanks at the start. -/
theorem met_trimStart (T : Template) : T.trimStart.met = T.met := by
  induction T with
  | text t rest ih =>
      rw [trimStart]
      split
      · exact ih
      · rfl
  | _ => rfl

/-- No condition is lost with the blanks at the end. -/
theorem met_trimEnd (T : Template) : T.trimEnd.met = T.met := by
  induction T with
  | done => rfl
  | text t rest ih =>
      rw [trimEnd]
      split
      · rename_i hblank
        exact (met_of_blank hblank).symm
      · exact ih
  | when e yes rest _ ih => simp [trimEnd, met, ih]
  | choice e yes no rest _ _ ih => simp [trimEnd, met, ih]

/-- No condition is lost by trimming. -/
theorem met_trim (T : Template) : T.trim.met = T.met := by
  rw [trim, met_trimEnd, met_trimStart]

/-! ### Reading what is written -/

/-- Nothing in a well formed template begins a literal. -/
theorem WellFormed.freeOf {T : Template} (hT : T.WellFormed) : FreeOf literalMarks T.write := by
  -- The marks are in none of the parts that are written around the branches.
  have hhead : ∀ {e : Text}, IsCondition e → FreeOf literalMarks (headOf e) := by
    intro e he
    have he' : FreeOf literalMarks e := he.1.mono fun c hc => by simp [hc]
    rw [headOf_eq]
    simp only [freeOf_cons, freeOf_append, freeOf_nil, he', and_true, true_and]
    decide
  have helse : FreeOf literalMarks elseMark := by
    rw [elseMark_eq]
    decide
  induction T with
  | done => exact freeOf_nil _
  | text t rest ih =>
      exact freeOf_append.mpr ⟨hT.1.mono (List.subset_cons_self _ _), ih hT.2⟩
  | when e yes rest ihyes ihrest =>
      obtain ⟨he, ⟨-, hyes⟩, hrest⟩ := hT
      simp only [write, freeOf_append, freeOf_cons]
      exact ⟨hhead he, by decide, ihyes hyes, by decide, ihrest hrest⟩
  | choice e yes no rest ihyes ihno ihrest =>
      obtain ⟨he, ⟨-, hyes⟩, ⟨-, hno⟩, hrest⟩ := hT
      simp only [write, freeOf_append, freeOf_cons]
      exact ⟨hhead he, by decide, ihyes hyes, by decide, helse, by decide, ihno hno, by decide,
        ihrest hrest⟩

/-- No template begins like an `@else`, so nothing behind a conditional is
taken for its other branch. -/
theorem WellFormed.fromElse?_write {T : Template} (hT : T.WellFormed) :
    fromElse? T.write = none := by
  have hkeyword : "@else".toList = ['@', 'e', 'l', 's', 'e'] := by decide +kernel
  -- Behind the blanks stands a character of a text, or the keyword of a conditional.
  have hstart : after? ['@', 'e', 'l', 's', 'e'] (Text.trimStart T.write) = none := by
    rw [← write_trimStart]
    induction T with
    | done => rfl
    | text t rest ih =>
        rw [Template.trimStart]
        split
        · exact ih hT.2
        · -- The first character that is left comes from `t`, so it is no `@`.
          rename_i hblank
          have hne : Text.trimStart t ≠ [] := by
            intro hnil
            exact hblank (blank_iff.mpr (List.dropWhile_eq_nil_iff.mp hnil))
          obtain ⟨c, r, hc⟩ := List.exists_cons_of_ne_nil hne
          have hmem : c ∈ t :=
            (List.dropWhile_suffix isBlank).subset (hc ▸ List.mem_cons_self : c ∈ Text.trimStart t)
          have hat : c ≠ '@' := by
            rintro rfl
            exact hT.1 _ hmem List.mem_cons_self
          rw [write, hc]
          simp [after?, hat]
    | when e yes rest _ _ =>
        rw [Template.trimStart, write, headOf_eq]
        · simp [after?]
        · simp
    | choice e yes no rest _ _ _ =>
        rw [Template.trimStart, write, headOf_eq]
        · simp [after?]
        · simp
  rw [fromElse?, hkeyword, hstart]

end Template

/-- The keyword as a list of characters, for rewriting. -/
theorem keyword_chars : "@if".toList = ['@', 'i', 'f'] := by decide +kernel

/-- A conditional begins with `@`. -/
theorem header?_cons {c : Char} (hc : c ≠ '@') (r : Text) : header? (c :: r) = none := by
  rw [header?, keyword_chars]
  simp [after?, hc]

/-- The head of a conditional is found where it is written. -/
theorem header?_headOf (e rest : Text) :
    header? (headOf e ++ rest) = some (['@', 'i', 'f'], '(' :: (e ++ ')' :: rest)) := by
  have hblank : isBlank '(' = false := by decide
  rw [header?, keyword_chars, headOf_eq]
  simp [after?, hblank]

/-- Behind the head stands a conditional without an `@else`. -/
theorem take?_when (whole : Text) {e yes : Text} {rest : Template} (he : Template.IsCondition e)
    (hyes : Balanced yes) (hfree : FreeOf literalMarks yes) (hrest : rest.WellFormed) :
    take? whole ('(' :: (e ++ ')' :: '{' :: (yes ++ '}' :: rest.write)))
      = .ok (some ⟨e, yes, none, rest.write⟩) := by
  have hparen : FreeOf ['(', ')'] e := he.1.mono (by simp)
  have hliteral : FreeOf literalMarks e := he.1.mono fun c hc => by simp [hc]
  have hblank : isBlank '{' = false := by decide
  have hbehind : FreeOf literalMarks ('{' :: (yes ++ '}' :: rest.write)) := by
    simp only [freeOf_cons, freeOf_append, hfree, hrest.freeOf, and_true, true_and]
    decide
  rw [take?, close?_paren hparen hliteral hbehind]
  simp [Text.trimStart, hblank, close?_block hyes hfree hrest.freeOf, hrest.fromElse?_write]

/-- Or one with an `@else`. -/
theorem take?_choice (whole : Text) {e yes no rest : Text} (he : Template.IsCondition e)
    (hyes : Balanced yes) (hfree : FreeOf literalMarks yes) (hno : Balanced no)
    (hfree' : FreeOf literalMarks no) (hrest : FreeOf literalMarks rest) :
    take? whole ('(' :: (e ++ ')' :: '{' :: (yes ++ '}' :: (elseMark ++ '{' :: (no ++ '}' :: rest)))))
      = .ok (some ⟨e, yes, some no, rest⟩) := by
  have hparen : FreeOf ['(', ')'] e := he.1.mono (by simp)
  have hliteral : FreeOf literalMarks e := he.1.mono fun c hc => by simp [hc]
  have hblank : isBlank '{' = false := by decide
  have helse : FreeOf literalMarks (elseMark ++ '{' :: (no ++ '}' :: rest)) := by
    rw [elseMark_eq]
    simp only [freeOf_cons, freeOf_append, freeOf_nil, hfree', hrest, and_true, true_and]
    decide
  have hbehind : FreeOf literalMarks ('{' :: (yes ++ '}' :: (elseMark ++ '{' :: (no ++ '}' :: rest)))) := by
    simp only [freeOf_cons, hfree, helse, freeOf_append (s := yes), and_true, true_and]
    decide
  have hfrom : fromElse? (elseMark ++ '{' :: (no ++ '}' :: rest)) = some ('{' :: (no ++ '}' :: rest)) := by
    have hkeyword : "@else".toList = ['@', 'e', 'l', 's', 'e'] := by decide +kernel
    rw [fromElse?, hkeyword, elseMark_eq]
    simp [Text.trimStart, after?, isBlank]
  rw [take?, close?_paren hparen hliteral hbehind]
  simp [Text.trimStart, hblank, close?_block hyes hfree helse, hfrom, close?_block hno hfree' hrest]

/-! ### Resolving -/

/-- One character at which no conditional begins. -/
theorem resolveFrom_cons {c : Char} {r : Text} (hc : header? (c :: r) = none) (behind : Text) :
    resolveFrom behind (c :: r) = (resolveFrom (c :: behind) r).map (c :: ·) := by
  rw [resolveFrom]
  split
  · dsimp only
    cases resolveFrom (c :: behind) r <;> rfl
  · simp_all

/-- Resolving goes over a text in which no conditional begins. -/
theorem resolveFrom_text {t : Text} (ht : '@' ∉ t) (behind rest : Text) :
    resolveFrom behind (t ++ rest) = (resolveFrom (t.reverse ++ behind) rest).map (t ++ ·) := by
  induction t generalizing behind with
  | nil =>
      show resolveFrom behind rest = (resolveFrom behind rest).map fun u => u
      cases resolveFrom behind rest <;> rfl
  | cons c t ih =>
      simp only [List.mem_cons, not_or] at ht
      rw [List.cons_append, resolveFrom_cons (header?_cons (Ne.symm ht.1) _), ih ht.2,
        List.reverse_cons, List.append_assoc, List.singleton_append]
      cases resolveFrom (t.reverse ++ c :: behind) rest <;> rfl

/-- At a header that begins no conditional, resolving goes on behind the
parenthesis. -/
theorem resolveFrom_header {behind ahead header fromParen : Text}
    (hheader : header? ahead = some (header, fromParen))
    (hat : at? behind ahead fromParen = .ok none) :
    resolveFrom behind ahead
      = (resolveFrom ('(' :: (header.reverse ++ behind)) (fromParen.drop 1)).map
          fun t => header ++ '(' :: t := by
  rw [resolveFrom]
  split
  · simp_all
  · rename_i header' fromParen' hheader'
    rw [hheader] at hheader'
    cases hheader'
    split
    · simp_all
    · cases resolveFrom ('(' :: (header.reverse ++ behind)) (fromParen.drop 1) <;> rfl
    · simp_all

/-- At a conditional, resolving goes on with the branch that is selected. -/
theorem resolveFrom_conditional {behind ahead header fromParen : Text} {c : Conditional}
    (hheader : header? ahead = some (header, fromParen))
    (hat : at? behind ahead fromParen = .ok (some c)) :
    resolveFrom behind ahead
      = match Condition.parse c.expression with
        | .error _ => .error .broken
        | .ok none => .error (.noOperator (Text.trim c.expression))
        | .ok (some condition) => resolveFrom behind (c.branch condition.holds ++ c.rest) := by
  rw [resolveFrom]
  split
  · simp_all
  · rename_i header' fromParen' hheader'
    rw [hheader] at hheader'
    cases hheader'
    split
    · simp_all
    · simp_all
    · rename_i c' hat'
      rw [hat] at hat'
      cases hat'
      rfl

namespace Template

/-- What resolving a template is to give: its meaning, or the error of the
first condition that is met without an operator. -/
def outcome (T : Template) : Except ConditionError Text :=
  match T.firstBare? with
  | none => .ok T.meaning
  | some e => .error (.noOperator (Text.trim e))

/-- A piece of text stands in front of what is behind it. -/
theorem outcome_text (t : Text) (rest : Template) :
    (text t rest).outcome = rest.outcome.map (t ++ ·) := by
  have hbare : (text t rest).firstBare? = rest.firstBare? := rfl
  rw [outcome, outcome, hbare]
  cases rest.firstBare? with
  | none => simp [meaning, Except.map]
  | some e => rfl

/-- A conditional in front of a template, with the branches that it has,
fails at once or turns into its selected branch. -/
theorem outcome_selected {e : Text} {yes rest T : Template} (no : Template)
    (hmet : T.met = e :: ((if truth e then yes.met else no.met) ++ rest.met))
    (hmeaning : T.meaning
      = (if truth e then yes.trim.meaning else no.trim.meaning) ++ rest.meaning) :
    T.outcome
      = if HasOperator e then (((if truth e then yes else no).trim).append rest).outcome
        else .error (.noOperator (Text.trim e)) := by
  by_cases he : HasOperator e
  · have hbare : T.firstBare? = (((if truth e then yes else no).trim).append rest).firstBare? := by
      -- The condition is met first, but it has an operator, so the search goes on behind it.
      rw [firstBare?, firstBare?, hmet, met_append, met_trim, List.find?_cons]
      cases truth e <;> simp [he]
    have hsame : T.meaning = (((if truth e then yes else no).trim).append rest).meaning := by
      rw [hmeaning, meaning_append]
      cases truth e <;> simp
    rw [if_pos he, outcome, outcome, hbare, hsame]
  · rw [if_neg he, outcome, firstBare?, hmet, List.find?_cons]
    simp [he]

end Template

/-- The same for a text that begins with a conditional. -/
theorem resolveFrom_selected {behind ahead header fromParen : Text} {c : Conditional}
    (hheader : header? ahead = some (header, fromParen))
    (hat : at? behind ahead fromParen = .ok (some c)) {yes rest : Template} (no : Template)
    (he : Template.IsCondition c.expression) (hyes : c.thenBranch = yes.write)
    (hno : c.elseBranch.getD [] = no.write) (hrest : c.rest = rest.write) :
    resolveFrom behind ahead
      = if HasOperator c.expression then
          resolveFrom behind (((if truth c.expression then yes else no).trim).append rest).write
        else .error (.noOperator (Text.trim c.expression)) := by
  -- An expression without quotes and wide characters can always be read.
  have hplain : Condition.IsPlain c.expression := by
    intro d hd
    refine ⟨isQuote_of_not_mem fun hmem => he.1 d hd (by simp [hmem]), he.2 d hd⟩
  rw [resolveFrom_conditional hheader hat]
  rcases @Condition.parseFrom_cases [] _ hplain with ⟨hop, condition, hparse⟩ | ⟨hop, hparse⟩
  · have htruth : truth c.expression = condition.holds := by
      rw [truth, Condition.parse, hparse]
    -- The branch that is chosen is trimmed, and so is the template that it is the text of.
    have hbranch : c.branch condition.holds ++ c.rest
        = (((if truth c.expression then yes else no).trim).append rest).write := by
      rw [Template.write_append, Template.write_trim, branch, hyes, hno, hrest, htruth]
      cases condition.holds <;> rfl
    rw [if_pos hop, Condition.parse, hparse, ← hbranch]
  · rw [if_neg hop, Condition.parse, hparse]

/-- Outside literals the conditional at a place is the one that can be read
there. -/
theorem at?_of_freeOf {behind ahead : Text} (hbehind : FreeOf literalMarks behind)
    (hahead : FreeOf literalMarks ahead) (fromParen : Text) :
    at? behind ahead fromParen = take? (behind.reverse ++ ahead) fromParen := by
  have hspans : literalSpans (behind.reverse ++ ahead) = [] :=
    literalSpans_of_freeOf (freeOf_append.mpr ⟨hbehind.reverse, hahead⟩)
  simp [at?, hspans, insideAny]

/-- There is nothing to resolve at the end. -/
theorem resolveFrom_nil (behind : Text) : resolveFrom behind [] = .ok [] := by
  have hnone : header? [] = none := by
    rw [header?, keyword_chars]
    rfl
  rw [resolveFrom]
  split
  · rfl
  · simp_all

/-- A conditional in front of a template that is smaller with the selected
branch in its place. -/
theorem size_selected_lt {e : Text} {yes no rest : Template} :
    (((if truth e then yes else no).trim).append rest).size < yes.size + no.size + rest.size + 1 := by
  have hyes := Template.size_trim_le yes
  have hno := Template.size_trim_le no
  rw [Template.size_append]
  split <;> omega

/-- Resolving follows the tree, whatever stands before it. The induction is on
the size, because a branch moves into the row of its conditional. What stands
before must not have an open literal in it, or the template would be part of
that. -/
theorem resolveFrom_write {T : Template} (hT : T.WellFormed) {behind : Text}
    (hbehind : FreeOf literalMarks behind) : resolveFrom behind T.write = T.outcome := by
  induction hn : T.size using Nat.strongRecOn generalizing T behind with
  | ind n ih =>
    subst hn
    have hahead := hT.freeOf
    cases T with
    | done =>
        rw [Template.write, resolveFrom_nil]
        simp [Template.outcome, Template.firstBare?, Template.met, Template.meaning]
    | text t rest =>
        obtain ⟨ht, hrest⟩ := hT
        have hat : '@' ∉ t := fun hmem => ht _ hmem List.mem_cons_self
        have hbehind' : FreeOf literalMarks (t.reverse ++ behind) :=
          freeOf_append.mpr ⟨(ht.mono (List.subset_cons_self _ _)).reverse, hbehind⟩
        rw [Template.write, resolveFrom_text hat, ih rest.size (Nat.lt_succ_self _) hrest hbehind' rfl,
          Template.outcome_text]
    | when e yes rest =>
        obtain ⟨he, ⟨hyes, hyes'⟩, hrest⟩ := hT
        have hconditional := at?_of_freeOf hbehind hahead
          ('(' :: (e ++ ')' :: '{' :: (yes.write ++ '}' :: rest.write)))
        rw [take?_when _ he hyes hyes'.freeOf hrest] at hconditional
        -- Without an `@else` the other branch is the empty template.
        have hselected : ((if truth e then yes else .done).trim).WellFormed := by
          split
          · exact hyes'.trim
          · trivial
        have hmeaning : (Template.when e yes rest).meaning
            = (if truth e then yes.trim.meaning else Template.done.trim.meaning) ++ rest.meaning := by
          rw [Template.meaning]
          cases truth e <;> simp [Template.trim, Template.trimStart, Template.trimEnd, Template.meaning]
        rw [Template.outcome_selected .done rfl hmeaning, Template.write,
          resolveFrom_selected (header?_headOf e _) hconditional .done he rfl rfl rfl,
          ih _ size_selected_lt (hselected.append hrest) hbehind rfl]
    | choice e yes no rest =>
        obtain ⟨he, ⟨hyes, hyes'⟩, ⟨hno, hno'⟩, hrest⟩ := hT
        have hconditional := at?_of_freeOf hbehind hahead ('(' :: (e ++ ')' :: '{' ::
          (yes.write ++ '}' :: (elseMark ++ '{' :: (no.write ++ '}' :: rest.write)))))
        rw [take?_choice _ he hyes hyes'.freeOf hno hno'.freeOf hrest.freeOf] at hconditional
        have hselected : ((if truth e then yes else no).trim).WellFormed := by
          split
          · exact hyes'.trim
          · exact hno'.trim
        have hmeaning : (Template.choice e yes no rest).meaning
            = (if truth e then yes.trim.meaning else no.trim.meaning) ++ rest.meaning := by
          rw [Template.meaning]
        rw [Template.outcome_selected no rfl hmeaning, Template.write,
          resolveFrom_selected (header?_headOf e _) hconditional no he rfl rfl rfl,
          ih _ size_selected_lt (hselected.append hrest) hbehind rfl]

/-- Resolving a template gives its meaning if every condition on a selected
path has an operator. Otherwise the first one without is the error, and
those that are not on a selected path make no difference. -/
theorem resolve_meaning {T : Template} (hT : T.WellFormed) :
    ((∀ e ∈ T.met, HasOperator e) → resolve T.write = .ok T.meaning)
    ∧ ∀ before e after, T.met = before ++ e :: after → (∀ e' ∈ before, HasOperator e') →
      ¬ HasOperator e → resolve T.write = .error (.noOperator (Text.trim e)) := by
  have hresolve : resolve T.write = T.outcome := resolveFrom_write hT (freeOf_nil _)
  rw [hresolve, Template.outcome, Template.firstBare?]
  refine ⟨?_, ?_⟩
  · intro hall
    have hnone : T.met.find? (fun e => !decide (HasOperator e)) = none := by
      simpa using hall
    rw [hnone]
  · intro before e after hmet hbefore he
    have hsome : T.met.find? (fun e => !decide (HasOperator e)) = some e := by
      rw [hmet, List.find?_append]
      have hnone : before.find? (fun e => !decide (HasOperator e)) = none := by
        simpa using hbefore
      simp [hnone, he]
    rw [hsome]

/-- A conditional in the branch that is selected, and one without an
operator in the other. -/
def forked : Template :=
  .choice "a == a".toList
    (.text " x\x7b ".toList (.when " b>a ".toList (.text " y ".toList .done)
      (.text "\x7d ".toList .done)))
    (.when "bare".toList (.text "z".toList .done) .done)
    (.text " !".toList .done)

/-- The same with the comparison the other way round. -/
def bareFork : Template :=
  .choice "a != a".toList (.text "x".toList .done)
    (.when " bare ".toList (.text "z".toList .done) .done) (.when "late".toList .done .done)

/-- The first template is resolved, and in the second the condition without an
operator is selected. -/
theorem resolve_forked :
    forked.WellFormed ∧ resolve forked.write = .ok "x\x7b y\x7d !".toList
    ∧ bareFork.WellFormed ∧ resolve bareFork.write = .error (.noOperator "bare".toList) := by
  have hforked : forked.WellFormed := by decide +kernel
  have hbare : bareFork.WellFormed := by decide +kernel
  refine ⟨hforked, ?_, hbare, ?_⟩
  · rw [(resolve_meaning hforked).1 (by decide +kernel)]
    exact congrArg Except.ok (by decide +kernel)
  · exact (resolve_meaning hbare).2 ["a != a".toList] " bare ".toList ["late".toList]
      (by decide +kernel) (by decide +kernel) (by decide +kernel)

end Conditional

end Stylesheet
