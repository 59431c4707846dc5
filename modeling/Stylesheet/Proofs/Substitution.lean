import Stylesheet.Compilation
import Stylesheet.Decimal.Integer

/-!
# Placeholders in a text

`Placeholder.interpolate` takes a text apart at its placeholders. When a
text is known as a row of plain texts and placeholders in braces, it is
taken apart just there: `cut_text` goes over a text without `$`, `cut_hole`
over a placeholder. Then filling it in succeeds if every name has a value
(`run_interpolate`).

Numbers are values too. They are written in decimal, which has no `$`, and
they are read back as they were (`readInt64?_ofInt`).
-/

set_option autoImplicit false

namespace Stylesheet

/-! ### Values of a table -/

namespace Table

variable {α : Type}

/-- Looking up a name behind setting one. -/
theorem lookup_setEntry (name : Text) (v : α) (es : List (Text × α)) (x : Text) :
    (setEntry name v es).lookup x = if x = name then some v else es.lookup x := by
  have hbeq : (x == name) = decide (x = name) := by
    rw [Bool.eq_iff_iff]
    simp
  induction es with
  | nil =>
      rw [setEntry, List.lookup_cons, hbeq]
      by_cases h : x = name <;> simp [h]
  | cons e es ih =>
      obtain ⟨n, u⟩ := e
      by_cases hn : n = name
      · subst hn
        rw [setEntry, if_pos rfl, List.lookup_cons, List.lookup_cons, hbeq]
        by_cases h : x = n <;> simp [h]
      · rw [setEntry, if_neg hn, List.lookup_cons, List.lookup_cons, ih]
        by_cases h : x = name
        · subst h
          have hother : (x == n) = false := by simpa using Ne.symm hn
          simp [hother]
        · simp [h]

/-- The same in a table. -/
theorem get?_set (t : Table α) (name : Text) (v : α) (x : Text) :
    (t.set name v).get? x = if x = name then some v else t.get? x :=
  lookup_setEntry name v t.entries x

/-- Of several values that a name is given, the last one stays. -/
theorem get?_extend (t : Table α) (pairs : List (Text × α)) (x : Text) :
    (t.extend pairs).get? x = (pairs.reverse.lookup x).or (t.get? x) := by
  induction pairs generalizing t with
  | nil => rfl
  | cons p pairs ih =>
      obtain ⟨name, v⟩ := p
      have hstep : t.extend ((name, v) :: pairs) = (t.set name v).extend pairs := rfl
      rw [hstep, ih, get?_set, List.reverse_cons, List.lookup_append, Option.or_assoc,
        List.lookup_cons]
      by_cases h : x = name
      · simp [h]
      · have hbeq : (x == name) = false := by simpa using h
        simp [h, hbeq]

/-- Setting values, and then more of them. -/
theorem extend_append (t : Table α) (pairs more : List (Text × α)) :
    t.extend (pairs ++ more) = (t.extend pairs).extend more :=
  List.foldl_append

end Table

/-! ### Numbers -/

namespace Decimal

/-- A number as it is written. -/
def ofInt (i : Int) : Text := (toString i).toList

/-- The numbers of 64 bits. -/
def IsInt64 (i : Int) : Prop := -9223372036854775808 ≤ i ∧ i < 9223372036854775808

instance (i : Int) : Decidable (IsInt64 i) := inferInstanceAs (Decidable (_ ∧ _))

/-- The number that a sign and digits stand for. -/
def ofSigned (sign digits : Text) : Int :=
  if sign = ['-'] then -natOf digits else natOf digits

/-- A sign, which may be absent, and digits, for a number of 64 bits. -/
structure IsLiteral (sign digits : Text) : Prop where
  isSign : sign ∈ [[], ['-'], ['+']]
  ne_nil : digits ≠ []
  isDigit : ∀ c ∈ digits, isDigit c = true
  isInt64 : IsInt64 (ofSigned sign digits)

instance (sign digits : Text) : Decidable (IsLiteral sign digits) :=
  decidable_of_iff (sign ∈ [[], ['-'], ['+']] ∧ digits ≠ [] ∧ digits.all Stylesheet.isDigit = true
      ∧ IsInt64 (ofSigned sign digits))
    ⟨fun ⟨h₁, h₂, h₃, h₄⟩ => ⟨h₁, h₂, List.all_eq_true.mp h₃, h₄⟩,
      fun h => ⟨h.1, h.2, List.all_eq_true.mpr h.3, h.4⟩⟩

/-- A literal is read as the number that it stands for. -/
theorem readInt64?_literal {sign digits : Text} (h : IsLiteral sign digits) :
    readInt64? (sign ++ digits) = some (ofSigned sign digits) := by
  have hall : digits.all Stylesheet.isDigit = true := by simpa using h.isDigit
  obtain ⟨c, r, rfl⟩ := List.exists_cons_of_ne_nil h.ne_nil
  -- A digit is no sign, so a missing sign is not read from the digits.
  have hc := h.isDigit c List.mem_cons_self
  have hminus : c ≠ '-' := by
    rintro rfl
    cases hc
  have hplus : c ≠ '+' := by
    rintro rfl
    cases hc
  have hrange := h.isInt64
  obtain rfl | rfl | rfl : sign = [] ∨ sign = ['-'] ∨ sign = ['+'] := by simpa using h.isSign
  · simp [readInt64?, hminus, hplus, hall, ofSigned, IsInt64] at hrange ⊢
    exact hrange
  · simp [readInt64?, hall, ofSigned, IsInt64] at hrange ⊢
    exact hrange
  · simp [readInt64?, hall, ofSigned, IsInt64] at hrange ⊢
    exact hrange

/-- Digits are read as the number that they were written for. -/
theorem natOf_toDigits (n : Nat) : natOf (Nat.toDigits 10 n) = n :=
  Nat.ofDigitChars_ten_toDigits

/-- A number is written with digits. -/
theorem isDigit_of_mem_toDigits {n : Nat} {c : Char} (h : c ∈ Nat.toDigits 10 n) :
    Stylesheet.isDigit c = true := by
  have hdigit := Nat.isDigit_of_mem_toDigits (by decide) (Nat.le_refl 10) h
  simpa [Char.isDigit, Stylesheet.isDigit, Char.le_def] using hdigit

/-- A number is written with its sign and the digits of its size. -/
theorem ofInt_eq (i : Int) :
    ofInt i = (if i < 0 then ['-'] else []) ++ Nat.toDigits 10 i.natAbs := by
  by_cases h : 0 ≤ i
  · have habs : i.natAbs = i.toNat := by omega
    simp [ofInt, Int.repr_eq_if, h, habs]
  · have habs : i.natAbs = (-i).toNat := by omega
    simp [ofInt, Int.repr_eq_if, h, habs, Int.not_le.mp h]

/-- A number of 64 bits is written as a literal that stands for it. -/
theorem exists_literal {i : Int} (hi : IsInt64 i) :
    ∃ sign digits, ofInt i = sign ++ digits ∧ IsLiteral sign digits ∧ ofSigned sign digits = i := by
  have hvalue : ofSigned (if i < 0 then ['-'] else []) (Nat.toDigits 10 i.natAbs) = i := by
    rw [ofSigned, natOf_toDigits]
    by_cases h : i < 0
    · rw [if_pos h, if_pos rfl]
      omega
    · rw [if_neg h, if_neg (by simp)]
      omega
  refine ⟨_, _, ofInt_eq i, ⟨?_, Nat.toDigits_ne_nil, fun c hc => isDigit_of_mem_toDigits hc, ?_⟩,
    hvalue⟩
  · split <;> simp
  · rwa [hvalue]

/-- Reading undoes writing, for numbers that fit in 64 bits. -/
theorem readInt64?_ofInt {i : Int} (hi : IsInt64 i) : readInt64? (ofInt i) = some i := by
  obtain ⟨sign, digits, htext, hliteral, hvalue⟩ := exists_literal hi
  rw [htext, readInt64?_literal hliteral, hvalue]

end Decimal

/-! ### Names -/

/-- What a constant can be called. -/
def IsName (x : Text) : Prop := x ≠ [] ∧ ∀ c ∈ x, isNameChar c = true

instance (x : Text) : Decidable (IsName x) :=
  decidable_of_iff (x ≠ [] ∧ x.all isNameChar = true) (by simp [IsName])

/-- The characters of names lie between `-` and `z`. -/
theorem isNameChar_range {c : Char} (h : isNameChar c = true) : 45 ≤ c.toNat ∧ c.toNat ≤ 122 := by
  have hval : c.toNat = c.val.toNat := rfl
  simp only [isNameChar, Bool.or_eq_true, beq_iff_eq] at h
  rcases h with ((h | h) | rfl) | rfl
  · grind [isLetter, Char.le_def, UInt32.le_iff_toNat_le]
  · grind [isDigit, Char.le_def, UInt32.le_iff_toNat_le]
  · decide
  · decide

/-- No character of a name is a blank. -/
theorem isBlank_of_isNameChar {c : Char} (h : isNameChar c = true) : isBlank c = false := by
  have hrange := isNameChar_range h
  simp [isBlank]
  omega

/-- Digits are characters of names. -/
theorem isNameChar_of_isDigit {c : Char} (h : isDigit c = true) : isNameChar c = true := by
  simp [isNameChar, h]

/-- So are those of a literal, but for the plus sign. -/
theorem Decimal.IsLiteral.isNameChar_or {sign digits : Text} (h : IsLiteral sign digits) {c : Char}
    (hc : c ∈ sign ++ digits) : isNameChar c = true ∨ c = '+' := by
  rcases List.mem_append.mp hc with hc | hc
  · obtain rfl | rfl | rfl : sign = [] ∨ sign = ['-'] ∨ sign = ['+'] := by simpa using h.isSign
    · cases hc
    · obtain rfl := List.mem_singleton.mp hc
      exact .inl (by decide)
    · exact .inr (List.mem_singleton.mp hc)
  · exact .inl (isNameChar_of_isDigit (h.isDigit c hc))

/-- Numbers are written with characters of names. -/
theorem Decimal.isNameChar_of_mem_ofInt {i : Int} {c : Char} (h : c ∈ ofInt i) :
    isNameChar c = true := by
  rw [ofInt_eq, List.mem_append] at h
  rcases h with h | h
  · split at h
    · obtain rfl := List.mem_singleton.mp h
      decide
    · cases h
  · exact isNameChar_of_isDigit (isDigit_of_mem_toDigits h)

namespace Placeholder

/-- A name goes as far as its characters. -/
theorem takeName?_append {x : Text} (hx : IsName x) {rest : Text}
    (hrest : ∀ c ∈ rest.head?, isNameChar c = false) :
    takeName? (x ++ rest) = some (x, rest) := by
  have htake : (x ++ rest).takeWhile isNameChar = x := by
    rw [List.takeWhile_append_of_pos hx.2]
    cases rest <;> simp_all
  have hdrop : (x ++ rest).dropWhile isNameChar = rest := by
    rw [List.dropWhile_append_of_pos hx.2]
    cases rest <;> simp_all
  rw [takeName?, htake, hdrop, if_neg (by simpa using hx.1)]

/-- A placeholder at the front is an item. -/
theorem cut_of_take? {t name rest : Text} (h : take? t = some (name, rest)) :
    cut t = (cut rest).item name := by
  cases t with
  | nil => cases h
  | cons c r =>
      rw [cut]
      split
      · rename_i h'
        rw [h] at h'
        cases h'
        rfl
      · simp_all

/-- One character at which no placeholder begins. -/
theorem cut_cons {c : Char} {r : Text} (h : take? (c :: r) = none) :
    cut (c :: r) = (cut r).prepend [c] := by
  rw [cut]
  split
  · simp_all
  · rfl

/-- There is no `$` at the front if there is none in the first text and at the
front of the second. -/
theorem head?_append_ne {t rest : Text} (ht : '$' ∉ t) (hrest : rest.head? ≠ some '$') :
    (t ++ rest).head? ≠ some '$' := by
  cases t with
  | nil => exact hrest
  | cons c t => simpa [eq_comm] using fun h : '$' = c => ht (h ▸ List.mem_cons_self)

/-- A text without `$` is no part of a placeholder, unless a name of the
short form follows it. -/
theorem cut_text {t : Text} (ht : '$' ∉ t) {rest : Text} (hrest : rest.head? ≠ some '$') :
    cut (t ++ rest) = (cut rest).prepend t := by
  induction t with
  | nil =>
      show cut rest = (cut rest).prepend []
      obtain ⟨parts, last⟩ := cut rest
      cases parts <;> rfl
  | cons c t ih =>
      simp only [List.mem_cons, not_or] at ht
      have hhead := head?_append_ne ht.2 hrest
      -- For a placeholder either `c` or the character behind it would have to be a `$`.
      have hnone : take? (c :: (t ++ rest)) = none := by
        unfold take?
        split
        · rename_i h
          obtain ⟨rfl, hr⟩ := List.cons.inj h
          rw [hr] at hhead
          exact absurd rfl hhead
        · rename_i h
          obtain ⟨rfl, -⟩ := List.cons.inj h
          exact absurd rfl ht.1
        · rfl
      rw [List.cons_append, cut_cons hnone, ih ht.2]
      obtain ⟨parts, last⟩ := cut rest
      cases parts <;> rfl

/-- A placeholder in braces. -/
theorem cut_hole {x : Text} (hx : IsName x) (rest : Text) :
    cut ('{' :: '$' :: (x ++ '}' :: rest)) = (cut rest).item x := by
  refine cut_of_take? ?_
  rw [take?, takeName?_append hx (by simp; decide)]
  rfl

/-- A name of the short form, with nothing behind it. -/
theorem cut_name {x : Text} (hx : IsName x) : cut ('$' :: x) = (Cut.whole []).item x := by
  have htake : take? ('$' :: x) = some (x, []) := by
    rw [take?]
    have hend : ∀ c ∈ ([] : Text).head?, isNameChar c = false := by simp
    simpa using takeName?_append hx hend
  rw [cut_of_take? htake, cut]

/-- Every placeholder is filled, if every name has a value. -/
theorem interpolate_eq {table : Table Text} {t : Text}
    (h : ∀ name ∈ (cut t).items, table.contains name = true) :
    interpolate table t = .ok ((cut t).fill fun name => (table.get? name).getD []) := by
  have hnone : (references t).find? (fun name => !table.contains name) = none := by
    rw [List.find?_eq_none]
    intro name hname
    simpa using h name (by simpa [references] using hname)
  rw [interpolate, hnone]

end Placeholder

/-- The same as a step of a compilation, which leaves the state as it is. -/
theorem Compile.run_interpolate {t : Text} {s : State}
    (h : ∀ name ∈ (Placeholder.cut t).items, s.constants.contains name = true) (job : Job) :
    (Compile.interpolate t).run job s
      = .ok ((Placeholder.cut t).fill fun name => (s.constants.get? name).getD []) s := by
  show (Compile.interpolateWith s.constants t).run job s = _
  rw [Compile.interpolateWith, Placeholder.interpolate_eq h]
  rfl

end Stylesheet
