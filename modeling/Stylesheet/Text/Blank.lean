/-!
# Blank characters

Two classes of white space meet in a stylesheet. Trimming, word
splitting and the gaps inside directives go by the White_Space property
of Unicode (`isBlank`). The places that the format itself fixes to plain
ASCII, such as the gap before a `//` comment, go by `isAsciiBlank`.
-/

set_option autoImplicit false

namespace Stylesheet

/-- The characters with the Unicode property White_Space. -/
def isBlank (c : Char) : Bool :=
  let n := c.toNat
  (9 ≤ n && n ≤ 13) || n == 0x20 || n == 0x85 || n == 0xA0 || n == 0x1680
    || (0x2000 ≤ n && n ≤ 0x200A) || n == 0x2028 || n == 0x2029 || n == 0x202F
    || n == 0x205F || n == 0x3000

/-- Space, tab, line feed, form feed and carriage return. The vertical
tab is blank and not an ASCII blank. -/
def isAsciiBlank (c : Char) : Bool :=
  c == ' ' || c == '\t' || c == '\n' || c == '\x0c' || c == '\r'

/-- The narrow class lies inside the wide one. -/
theorem isBlank_of_isAsciiBlank {c : Char} (h : isAsciiBlank c = true) : isBlank c = true := by
  simp only [isAsciiBlank, Bool.or_eq_true, beq_iff_eq] at h
  rcases h with (((rfl | rfl) | rfl) | rfl) | rfl <;> decide

end Stylesheet
