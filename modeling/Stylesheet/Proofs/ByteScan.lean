import Stylesheet.Proofs.LiteralSpans

/-!
# Literals are found on bytes as on characters

A scanner may look for literals on the bytes of the UTF-8 encoding, without
decoding it. `byteSpans` is that scanner. It goes from byte to byte, and at a
backslash inside a string it goes on two bytes further, whatever character
follows. If that is a wide one, then the scanner goes on from the middle of
it.

This does no harm. Everything it compares bytes with is a character of one
byte, and no byte of a wide character is such a one
(`exists_utf8EncodeChar`). So what is left of a character is passed over
byte by byte, and the scanner is at the next character again
(`stringEnd_trailing`, `commentEnd_skip`, `byteSpans_trailing`).

`byteSpans_eq_literalSpans`: the spans are those that are found by taking a
literal apart by characters.
-/

set_option autoImplicit false

namespace Stylesheet

/-! ### Bytes of texts -/

namespace Text

/-- The bytes of the encoding of a text. -/
def bytes (t : Text) : List UInt8 := t.flatMap String.utf8EncodeChar

/-- The bytes are those that a `String` of the same characters holds. -/
theorem toByteArray_bytes (t : Text) : t.bytes.toByteArray = (String.ofList t).toByteArray :=
  String.toByteArray_ofList.symm

/-- The bytes of the first character come first. -/
theorem bytes_cons (c : Char) (t : Text) : bytes (c :: t) = String.utf8EncodeChar c ++ t.bytes :=
  List.flatMap_cons

/-- Two texts are encoded one after the other. -/
theorem bytes_append (s t : Text) : (s ++ t).bytes = s.bytes ++ t.bytes := List.flatMap_append

/-- The size of a text counts its bytes. With this the byte positions of the
two scanners are the same numbers. -/
theorem length_bytes (t : Text) : t.bytes.length = t.size := by
  induction t with
  | nil => rfl
  | cons c t ih => rw [bytes_cons, List.length_append, String.length_utf8EncodeChar, ih, size_cons]

end Text

open Text

/-- Characters of one byte have the bytes below 128. -/
theorem toUInt8_lt_of_utf8Size {x : Char} (hx : x.utf8Size = 1) : x.toUInt8 < 0x80 := by
  rw [Char.utf8Size_eq_one_iff, UInt32.le_iff_toNat_le] at hx
  rw [UInt8.lt_iff_toNat_lt, Char.toUInt8, UInt32.toNat_toUInt8]
  exact Nat.lt_of_le_of_lt (Nat.mod_le _ _) (Nat.lt_succ_of_le hx)

/-- A byte from 128 on is none of a character of one byte. -/
theorem ne_toUInt8_of_le {b : UInt8} (hb : 0x80 ≤ b) {x : Char} (hx : x.utf8Size = 1) :
    b ≠ x.toUInt8 := by
  rintro rfl
  exact absurd (toUInt8_lt_of_utf8Size hx) (UInt8.not_lt.mpr hb)

/-- Among characters of one byte the byte tells the character. Of others
`Char.toUInt8` keeps only the lowest byte. -/
theorem toUInt8_inj_of_utf8Size {x y : Char} (hx : x.utf8Size = 1) (hy : y.utf8Size = 1) :
    x.toUInt8 = y.toUInt8 ↔ x = y := by
  refine ⟨fun h => ?_, congrArg _⟩
  rw [Char.utf8Size_eq_one_iff, UInt32.le_iff_toNat_le] at hx hy
  have hnat : x.val.toNat % 2 ^ 8 = y.val.toNat % 2 ^ 8 := by
    rw [← UInt32.toNat_toUInt8, ← UInt32.toNat_toUInt8]
    exact congrArg UInt8.toNat h
  have hlimit : (127 : UInt32).toNat = 127 := rfl
  exact Char.ext (UInt32.toNat_inj.mp (by omega))

/-- The bytes of a wide character are those from 128 on. -/
theorem le_of_mem_utf8EncodeChar {c : Char} (hc : c.utf8Size ≠ 1) :
    ∀ b ∈ String.utf8EncodeChar c, 0x80 ≤ b := by
  rw [ne_eq, Char.utf8Size_eq_one_iff, UInt32.le_iff_toNat_le] at hc
  have hlimit : (127 : UInt32).toNat = 127 := rfl
  have hbyte : ∀ n, 128 ≤ n → n < 256 → 0x80 ≤ UInt8.ofNat n := by
    intro n hlow hhigh
    rw [UInt8.le_iff_toNat_le, UInt8.toNat_ofNat', Nat.mod_eq_of_lt hhigh]
    exact hlow
  fun_cases String.utf8EncodeChar c with
  | case1 v hv => exact absurd hv (by omega)
  | case2 v hv hv' =>
      simp only [List.mem_cons, List.not_mem_nil, or_false, forall_eq_or_imp, forall_eq]
      exact ⟨hbyte _ (by omega) (by omega), hbyte _ (by omega) (by omega)⟩
  | case3 v hv hv' hv'' =>
      simp only [List.mem_cons, List.not_mem_nil, or_false, forall_eq_or_imp, forall_eq]
      exact ⟨hbyte _ (by omega) (by omega), hbyte _ (by omega) (by omega),
        hbyte _ (by omega) (by omega)⟩
  | case4 v hv hv' hv'' =>
      simp only [List.mem_cons, List.not_mem_nil, or_false, forall_eq_or_imp, forall_eq]
      exact ⟨hbyte _ (by omega) (by omega), hbyte _ (by omega) (by omega),
        hbyte _ (by omega) (by omega), hbyte _ (by omega) (by omega)⟩

/-- The first byte of a character tells whether it is one of a single byte
and which, and no other byte of it can be taken for one. -/
theorem exists_utf8EncodeChar (c : Char) :
    ∃ b bs, String.utf8EncodeChar c = b :: bs
      ∧ (∀ x : Char, x.utf8Size = 1 → (b = x.toUInt8 ↔ c = x)) ∧ ∀ b' ∈ bs, 0x80 ≤ b' := by
  by_cases hc : c.utf8Size = 1
  · refine ⟨c.toUInt8, [], String.utf8EncodeChar_eq_singleton hc, fun x hx => ?_, by simp⟩
    exact toUInt8_inj_of_utf8Size hc hx
  · obtain ⟨b, bs, heq⟩ := List.exists_cons_of_ne_nil (String.utf8EncodeChar_ne_nil (c := c))
    have hbytes := le_of_mem_utf8EncodeChar hc
    rw [heq] at hbytes
    obtain ⟨hb, hbs⟩ := List.forall_mem_cons.mp hbytes
    refine ⟨b, bs, heq, fun x hx => ⟨?_, ?_⟩, hbs⟩
    · exact fun h => absurd h (ne_toUInt8_of_le hb hx)
    · rintro rfl
      exact absurd hx hc

/-! ### The scanner -/

/-- Where a string literal ends, from a position inside it. -/
def stringEnd (bytes : List UInt8) (quote : UInt8) (j : Nat) : Nat :=
  match _h : bytes[j]? with
  | none => bytes.length
  | some b =>
    if b = '\\'.toUInt8 then stringEnd bytes quote (j + 2)
    else if b = '\n'.toUInt8 then j
    else if b = quote then j + 1
    else stringEnd bytes quote (j + 1)
termination_by bytes.length - j
decreasing_by all_goals grind

/-- Where a comment ends, from a position behind its mark. -/
def commentEnd (bytes : List UInt8) (j : Nat) : Nat :=
  if bytes.length ≤ j + 1 then bytes.length
  else if bytes[j]? = some '*'.toUInt8 ∧ bytes[j + 1]? = some '/'.toUInt8 then j + 2
  else commentEnd bytes (j + 1)
termination_by bytes.length - j

/-- Where the literal ends that begins at a position, if one does. -/
def literalEnd? (bytes : List UInt8) (i : Nat) (b : UInt8) : Option Nat :=
  if b = '"'.toUInt8 ∨ b = apostrophe.toUInt8 then some (stringEnd bytes b (i + 1))
  else if b = '/'.toUInt8 ∧ bytes[i + 1]? = some '*'.toUInt8 then some (commentEnd bytes (i + 2))
  else none

/-- A string ends behind the position that is asked, or with the text. The
position may be behind the text, as after a backslash at its end. -/
theorem min_le_stringEnd (bytes : List UInt8) (quote : UInt8) (j : Nat) :
    min j bytes.length ≤ stringEnd bytes quote j := by
  fun_induction stringEnd bytes quote j with
  | case1 j hnone => exact Nat.min_le_right _ _
  | case2 j hb ih => omega
  | case3 j hb hne => exact Nat.min_le_left _ _
  | case4 j hb hne hne' => omega
  | case5 j b hb hne hne' hne'' ih => omega

/-- A comment ends behind the position that is asked. The position is in the
text or at its end, because the mark of the comment was found before it. -/
theorem le_commentEnd {bytes : List UInt8} {j : Nat} (h : j ≤ bytes.length) :
    j ≤ commentEnd bytes j := by
  fun_induction commentEnd bytes j with
  | case1 j hle => exact h
  | case2 j hle heq => omega
  | case3 j hle hne ih => omega

/-- The scanner gets further with every literal. -/
theorem lt_of_literalEnd? {bytes : List UInt8} {i stop : Nat} {b : UInt8} (hb : bytes[i]? = some b)
    (h : literalEnd? bytes i b = some stop) : i < stop := by
  obtain ⟨hi, -⟩ := List.getElem?_eq_some_iff.mp hb
  unfold literalEnd? at h
  split at h
  · cases h
    have hle := min_le_stringEnd bytes b (i + 1)
    omega
  · split at h
    · rename_i hmark
      obtain ⟨hi', -⟩ := List.getElem?_eq_some_iff.mp hmark.2
      cases h
      have hle : i + 2 ≤ commentEnd bytes (i + 2) := le_commentEnd hi'
      omega
    · cases h

/-- The spans of the literals from a position on. -/
def byteSpans (bytes : List UInt8) (i : Nat) : List Span :=
  match _hb : bytes[i]? with
  | none => []
  | some b =>
    match _hstop : literalEnd? bytes i b with
    | some stop => ⟨i, stop⟩ :: byteSpans bytes stop
    | none => byteSpans bytes (i + 1)
termination_by bytes.length - i
decreasing_by
  · have hlt := lt_of_literalEnd? _hb _hstop
    grind
  · grind

/-! ### Strings -/

section

variable {front : List UInt8} {b quote : UInt8} {rest : List UInt8}

/-- The byte at a position, if the position is given by what stands before it. -/
theorem getElem?_append_length (front : List UInt8) (b : UInt8) (rest : List UInt8) :
    (front ++ b :: rest)[front.length]? = some b := by
  simp

/-- Behind the text a string has ended with the text. -/
theorem stringEnd_of_length_le {bytes : List UInt8} {j : Nat} (h : bytes.length ≤ j) :
    stringEnd bytes quote j = bytes.length := by
  rw [stringEnd]
  split
  · rfl
  · rename_i hb
    rw [List.getElem?_eq_none h] at hb
    cases hb

/-- One byte of a string: the definition at a position that is given by what
stands before it. -/
theorem stringEnd_append_cons (front : List UInt8) (b quote : UInt8) (rest : List UInt8) :
    stringEnd (front ++ b :: rest) quote front.length
      = if b = '\\'.toUInt8 then stringEnd (front ++ b :: rest) quote (front.length + 2)
        else if b = '\n'.toUInt8 then front.length
        else if b = quote then front.length + 1
        else stringEnd (front ++ b :: rest) quote (front.length + 1) := by
  have hget := getElem?_append_length front b rest
  conv => lhs; rw [stringEnd]
  split
  · rename_i hnone
    rw [hget] at hnone
    cases hnone
  · rename_i b' hb'
    rw [hget] at hb'
    cases hb'
    rfl

/-- Bytes from 128 on are passed over: the quote is a character of one byte,
like all that is looked for. -/
theorem stringEnd_trailing {q : Char} (hq : q.utf8Size = 1) {trailing : List UInt8}
    (h : ∀ b ∈ trailing, 0x80 ≤ b) (front rest : List UInt8) :
    stringEnd (front ++ (trailing ++ rest)) q.toUInt8 front.length
      = stringEnd (front ++ (trailing ++ rest)) q.toUInt8 (front.length + trailing.length) := by
  induction trailing generalizing front with
  | nil => rfl
  | cons b trailing ih =>
      obtain ⟨hb, htrailing⟩ := List.forall_mem_cons.mp h
      have hnext := ih htrailing (front ++ [b])
      rw [List.append_assoc, List.length_append] at hnext
      rw [List.cons_append, stringEnd_append_cons, if_neg (ne_toUInt8_of_le hb rfl),
        if_neg (ne_toUInt8_of_le hb rfl), if_neg (ne_toUInt8_of_le hb hq), List.length_cons,
        Nat.add_comm trailing.length, ← Nat.add_assoc]
      exact hnext

end

/-- The bytes around one character. -/
theorem bytes_append_cons {c : Char} {b : UInt8} {bs : List UInt8}
    (h : String.utf8EncodeChar c = b :: bs) (front r : Text) :
    (front ++ c :: r).bytes = front.bytes ++ b :: (bs ++ r.bytes) := by
  rw [bytes_append, bytes_cons, h, List.cons_append]

/-- The size of a character, from its bytes. -/
theorem utf8Size_eq_of_utf8EncodeChar {c : Char} {b : UInt8} {bs : List UInt8}
    (h : String.utf8EncodeChar c = b :: bs) : c.utf8Size = bs.length + 1 := by
  rw [← String.length_utf8EncodeChar, h, List.length_cons]

/-- A byte where a character begins is one of a single byte just if the
character is. -/
theorem getElem?_bytes {x : Char} (hx : x.utf8Size = 1) (front : Text) (c : Char) (r : Text) :
    (front ++ c :: r).bytes[front.size]? = some x.toUInt8 ↔ c = x := by
  obtain ⟨b, bs, henc, hhead, -⟩ := exists_utf8EncodeChar c
  rw [bytes_append_cons henc, ← length_bytes, getElem?_append_length, Option.some.injEq, hhead x hx]

/-- The same of the byte behind a character of a single byte. -/
theorem getElem?_bytes_succ {x y : Char} (hx : x.utf8Size = 1) (hy : y.utf8Size = 1)
    (front r : Text) :
    (front ++ y :: r).bytes[front.size + 1]? = some x.toUInt8 ↔ r.head? = some x := by
  have hsize : (front ++ [y]).size = front.size + 1 := by
    rw [size_append, size_cons, hy, size_nil]
  cases r with
  | nil =>
      rw [List.getElem?_eq_none (Nat.le_of_eq ((length_bytes _).trans hsize))]
      simp
  | cons d r =>
      have hd := getElem?_bytes hx (front ++ [y]) d r
      rw [hsize, List.append_assoc, List.singleton_append] at hd
      rw [hd, List.head?_cons, Option.some.injEq]

/-- Behind a backslash the scanner goes on as if it went on behind the next
character. With a wide character it is in the middle of it, and with none it
is behind the text. -/
theorem stringEnd_escape {q : Char} (hq : q.utf8Size = 1) (front r : Text) :
    stringEnd (front ++ '\\' :: r).bytes q.toUInt8 (front.size + 2)
      = stringEnd (front ++ '\\' :: r).bytes q.toUInt8 (front ++ '\\' :: r.take 1).size := by
  cases r with
  | nil =>
      have hlength : (front ++ ['\\']).bytes.length = front.size + 1 := by
        rw [length_bytes, size_append]
        rfl
      rw [stringEnd_of_length_le (by omega), List.take_nil,
        stringEnd_of_length_le (Nat.le_of_eq (length_bytes _))]
  | cons d r =>
      -- The byte behind the backslash is the first one of a character, and the others of it are
      -- passed one by one.
      obtain ⟨b, bs, henc, -, htrailing⟩ := exists_utf8EncodeChar d
      have hbytes : (front ++ '\\' :: d :: r).bytes
          = (front.bytes ++ ['\\'.toUInt8, b]) ++ (bs ++ bytes r) := by
        rw [bytes_append, bytes_cons, bytes_cons, henc,
          String.utf8EncodeChar_eq_singleton (c := '\\') rfl]
        simp
        rfl
      have hskip := stringEnd_trailing hq htrailing (front.bytes ++ ['\\'.toUInt8, b]) (bytes r)
      have hsize : (front ++ '\\' :: (d :: r).take 1).size = front.size + 2 + bs.length := by
        have hback : '\\'.utf8Size = 1 := rfl
        simp only [List.take_succ_cons, List.take_zero, size_append, size_cons, size_nil,
          utf8Size_eq_of_utf8EncodeChar henc]
        omega
      rw [hsize, hbytes]
      simpa [length_bytes] using hskip

/-- One character of a string. -/
theorem stringEnd_char {q : Char} (hq : q.utf8Size = 1) (front : Text) (c : Char) (r : Text) :
    stringEnd (front ++ c :: r).bytes q.toUInt8 front.size
      = if c = '\\' then stringEnd (front ++ c :: r).bytes q.toUInt8 (front ++ c :: r.take 1).size
        else if c = '\n' then front.size
        else if c = q then front.size + 1
        else stringEnd (front ++ c :: r).bytes q.toUInt8 (front ++ [c]).size := by
  obtain ⟨b, bs, henc, hhead, htrailing⟩ := exists_utf8EncodeChar c
  have hbytes := bytes_append_cons henc front r
  have hstep := stringEnd_append_cons front.bytes b q.toUInt8 (bs ++ r.bytes)
  simp only [← hbytes, length_bytes, hhead '\\' rfl, hhead '\n' rfl, hhead q hq] at hstep
  rw [hstep]
  split
  · rename_i hc
    rw [hc, stringEnd_escape hq]
  · congr 2
    have hskip := stringEnd_trailing hq htrailing (front.bytes ++ [b]) r.bytes
    rw [List.append_assoc, List.singleton_append, ← hbytes, List.length_append, length_bytes] at hskip
    rw [List.length_singleton, Nat.add_assoc, Nat.add_comm 1] at hskip
    rw [hskip, size_append, size_cons, utf8Size_eq_of_utf8EncodeChar henc, size_nil, Nat.add_zero]

/-- A string ends where taking it by characters says. -/
theorem stringEnd_bytes {q : Char} (hq : q.utf8Size = 1) (front t : Text) :
    stringEnd (front ++ t).bytes q.toUInt8 front.size
      = (front ++ (Literal.takeString q t).1).size := by
  fun_induction Literal.takeString q t generalizing front with
  | case1 => rw [List.append_nil, stringEnd_of_length_le (Nat.le_of_eq (length_bytes _)), length_bytes]
  | case2 c hc =>
      obtain rfl := eq_of_beq hc
      rw [stringEnd_char hq, if_neg (by decide), if_pos rfl, List.append_nil]
  | case3 c hc =>
      have hend : stringEnd (front ++ [c]).bytes q.toUInt8 (front ++ [c]).size = (front ++ [c]).size := by
        rw [stringEnd_of_length_le (Nat.le_of_eq (length_bytes _)), length_bytes]
      rw [stringEnd_char hq, List.take_nil, hend]
      split
      · rfl
      · rw [if_neg (ne_of_beq_false (by simpa using hc))]
        split
        · rename_i heq
          rw [heq, size_append, size_cons, hq]
          rfl
        · rfl
  -- An escaped character: `takeString` goes on behind it, and `stringEnd_char` does so too.
  | case4 c d r hc inside rest heq ih =>
      obtain rfl := eq_of_beq hc
      have hrest := ih (front ++ ['\\', d])
      simp only [List.append_assoc, List.cons_append, List.nil_append, heq] at hrest
      rw [stringEnd_char hq, if_pos rfl]
      exact hrest
  | case5 c d r hc hc' =>
      obtain rfl := eq_of_beq hc'
      rw [stringEnd_char hq, if_neg (by decide), if_pos rfl, List.append_nil]
  -- The closing quote belongs to the string.
  | case6 c d r hc hc' hc'' =>
      obtain rfl := eq_of_beq hc''
      rw [stringEnd_char hq, if_neg (ne_of_beq_false (by simpa using hc)),
        if_neg (ne_of_beq_false (by simpa using hc')), if_pos rfl, size_append, size_cons, hq]
      rfl
  | case7 c d r hc hc' hc'' inside rest heq ih =>
      have hrest := ih (front ++ [c])
      simp only [List.append_assoc, List.cons_append, List.nil_append, heq] at hrest
      rw [stringEnd_char hq, if_neg (ne_of_beq_false (by simpa using hc)),
        if_neg (ne_of_beq_false (by simpa using hc')), if_neg (ne_of_beq_false (by simpa using hc''))]
      exact hrest

/-! ### Comments -/

/-- A comment that has less than two bytes left is not closed any more. -/
theorem commentEnd_of_length_le {bytes : List UInt8} {j : Nat} (h : bytes.length ≤ j + 1) :
    commentEnd bytes j = bytes.length := by
  rw [commentEnd, if_pos h]

/-- The comment does not end where there is no mark. -/
theorem commentEnd_succ {bytes : List UInt8} {j : Nat}
    (h : ¬ (bytes[j]? = some '*'.toUInt8 ∧ bytes[j + 1]? = some '/'.toUInt8)) :
    commentEnd bytes j = commentEnd bytes (j + 1) := by
  by_cases hle : bytes.length ≤ j + 1
  · rw [commentEnd_of_length_le hle, commentEnd_of_length_le (by omega)]
  · conv => lhs; rw [commentEnd]
    rw [if_neg hle, if_neg h]

/-- Bytes that are no star are passed over. -/
theorem commentEnd_skip {skipped : List UInt8} (h : ∀ b ∈ skipped, b ≠ '*'.toUInt8)
    (front rest : List UInt8) :
    commentEnd (front ++ (skipped ++ rest)) front.length
      = commentEnd (front ++ (skipped ++ rest)) (front.length + skipped.length) := by
  induction skipped generalizing front with
  | nil => rfl
  | cons b skipped ih =>
      obtain ⟨hb, hskipped⟩ := List.forall_mem_cons.mp h
      have hnext := ih hskipped (front ++ [b])
      rw [List.append_assoc, List.length_append] at hnext
      have hget := getElem?_append_length front b (skipped ++ rest)
      rw [List.cons_append, commentEnd_succ (by simpa [hget] using fun heq => absurd heq hb),
        List.length_cons, Nat.add_comm skipped.length, ← Nat.add_assoc]
      exact hnext

/-- One character of a comment that does not begin its end. -/
theorem commentEnd_char (front : Text) {c : Char} {r : Text}
    (h : c = '*' → r.head? ≠ some '/') :
    commentEnd (front ++ c :: r).bytes front.size
      = commentEnd (front ++ c :: r).bytes (front ++ [c]).size := by
  by_cases hstar : c = '*'
  · subst hstar
    rw [size_append]
    exact commentEnd_succ fun hend => h rfl ((getElem?_bytes_succ rfl rfl front r).mp hend.2)
  · -- None of the bytes of the character is a star.
    obtain ⟨b, bs, henc, hhead, htrailing⟩ := exists_utf8EncodeChar c
    have hskip : ∀ b' ∈ b :: bs, b' ≠ '*'.toUInt8 := by
      refine List.forall_mem_cons.mpr ⟨fun heq => hstar ((hhead '*' rfl).mp heq), ?_⟩
      exact fun b' hb' => ne_toUInt8_of_le (htrailing b' hb') rfl
    have hcomment := commentEnd_skip hskip front.bytes r.bytes
    rw [List.cons_append, ← bytes_append_cons henc, length_bytes] at hcomment
    rw [hcomment, size_append, size_cons, size_nil, utf8Size_eq_of_utf8EncodeChar henc,
      List.length_cons, Nat.add_zero]

/-- A comment ends where taking it by characters says. -/
theorem commentEnd_bytes (front t : Text) :
    commentEnd (front ++ t).bytes front.size = (front ++ (Literal.takeComment t).1).size := by
  have hend : ∀ front : Text, commentEnd front.bytes front.size = front.size := fun front => by
    rw [commentEnd_of_length_le (by rw [length_bytes]; omega), length_bytes]
  fun_induction Literal.takeComment t generalizing front with
  | case1 => rw [List.append_nil, hend]
  | case2 c => rw [commentEnd_char front (by simp), hend]
  | case3 c d r h =>
      obtain ⟨hc, hd⟩ := Bool.and_eq_true_iff.mp h
      obtain rfl := eq_of_beq hc
      obtain rfl := eq_of_beq hd
      -- The loop looks at a star only if there is a byte behind it.
      have hlength : front.size + 1 < (front ++ '*' :: '/' :: r).bytes.length := by
        have hstar : '*'.utf8Size = 1 := rfl
        have hslash : '/'.utf8Size = 1 := rfl
        simp only [length_bytes, size_append, size_cons]
        omega
      rw [commentEnd, if_neg (Nat.not_le.mpr hlength), if_pos ?_, size_append]
      · rfl
      · exact ⟨(getElem?_bytes rfl front '*' ('/' :: r)).mpr rfl,
          (getElem?_bytes_succ rfl rfl front ('/' :: r)).mpr rfl⟩
  | case4 c d r h inside rest heq ih =>
      have hrest := ih (front ++ [c])
      simp only [List.append_assoc, List.cons_append, List.nil_append, heq] at hrest
      rw [commentEnd_char front]
      · exact hrest
      · rintro rfl hd
        simp only [List.head?_cons, Option.some.injEq] at hd
        simp [hd] at h

/-! ### Literals -/

/-- The literal at a character ends where taking it says. -/
theorem literalEnd?_bytes (front : Text) {c : Char} {r : Text} {b : UInt8}
    (hhead : ∀ x : Char, x.utf8Size = 1 → (b = x.toUInt8 ↔ c = x)) :
    literalEnd? (front ++ c :: r).bytes front.size b
      = (Literal.take? (c :: r)).map fun taken => (front ++ taken.1.text).size := by
  -- What is asked of the first bytes says the same of the first characters.
  have hquote : b = '"'.toUInt8 ∨ b = apostrophe.toUInt8 ↔ isQuote c = true := by
    rw [hhead '"' rfl, hhead apostrophe rfl, isQuote, Bool.or_eq_true, beq_iff_eq, beq_iff_eq]
  have hmark : b = '/'.toUInt8 ∧ (front ++ c :: r).bytes[front.size + 1]? = some '*'.toUInt8
      ↔ c = '/' ∧ r.head? = some '*' := by
    rw [hhead '/' rfl]
    refine and_congr_right ?_
    rintro rfl
    exact getElem?_bytes_succ rfl rfl front r
  unfold literalEnd?
  cases htake : Literal.take? (c :: r) with
  | none =>
      obtain ⟨hnoquote, hnomark⟩ := Literal.take?_eq_none.mp htake
      rw [if_neg (by simp [hquote, hnoquote]), if_neg]
      · rfl
      · rw [hmark]
        exact fun h => hnomark h.1 h.2
  | some taken =>
      obtain ⟨p, rest⟩ := taken
      rcases Literal.take?_cases htake with ⟨q, r', hq, heq, rfl, rfl⟩ | ⟨r', heq, rfl, rfl⟩
      · cases heq
        have hsize := utf8Size_of_isQuote hq
        have hend := stringEnd_bytes hsize (front ++ [c]) r
        rw [size_append, size_cons, hsize, size_nil, List.append_assoc, List.append_assoc,
          List.singleton_append, List.singleton_append] at hend
        rw [if_pos (hquote.mpr hq), (hhead c hsize).mpr rfl, hend]
        rfl
      · cases heq
        have hend := commentEnd_bytes (front ++ ['/', '*']) r'
        rw [size_append, List.append_assoc, List.append_assoc] at hend
        rw [if_neg (by rw [hquote]; decide), if_pos (hmark.mpr ⟨rfl, rfl⟩)]
        exact congrArg some hend

section

variable {bytes : List UInt8} {i stop : Nat} {b : UInt8}

/-- No literal begins behind the text. -/
theorem byteSpans_of_length_le (h : bytes.length ≤ i) : byteSpans bytes i = [] := by
  rw [byteSpans]
  split
  · rfl
  · rename_i hb
    rw [List.getElem?_eq_none h] at hb
    cases hb

/-- Where a literal begins, the scanner goes on behind it. -/
theorem byteSpans_of_some (hb : bytes[i]? = some b) (h : literalEnd? bytes i b = some stop) :
    byteSpans bytes i = ⟨i, stop⟩ :: byteSpans bytes stop := by
  conv => lhs; rw [byteSpans]
  split
  · rename_i hnone
    cases hnone.symm.trans hb
  · rename_i hb'
    cases hb'.symm.trans hb
    split
    · rename_i hstop
      cases hstop.symm.trans h
      rfl
    · rename_i hstop
      cases hstop.symm.trans h

/-- Where none begins, the scanner goes on at the next byte, which may be in
the middle of a character. -/
theorem byteSpans_of_none (hb : bytes[i]? = some b) (h : literalEnd? bytes i b = none) :
    byteSpans bytes i = byteSpans bytes (i + 1) := by
  conv => lhs; rw [byteSpans]
  split
  · rename_i hnone
    cases hnone.symm.trans hb
  · rename_i hb'
    cases hb'.symm.trans hb
    split
    · rename_i hstop
      cases hstop.symm.trans h
    · rfl

end

/-- Bytes from 128 on begin no literal. -/
theorem byteSpans_trailing {trailing : List UInt8} (h : ∀ b ∈ trailing, 0x80 ≤ b)
    (front rest : List UInt8) :
    byteSpans (front ++ (trailing ++ rest)) front.length
      = byteSpans (front ++ (trailing ++ rest)) (front.length + trailing.length) := by
  induction trailing generalizing front with
  | nil => rfl
  | cons b trailing ih =>
      obtain ⟨hb, htrailing⟩ := List.forall_mem_cons.mp h
      have hnext := ih htrailing (front ++ [b])
      rw [List.append_assoc, List.length_append] at hnext
      have hget := getElem?_append_length front b (trailing ++ rest)
      have hnone : literalEnd? (front ++ b :: (trailing ++ rest)) front.length b = none := by
        rw [literalEnd?, if_neg (not_or.mpr ⟨ne_toUInt8_of_le hb rfl, ne_toUInt8_of_le hb rfl⟩),
          if_neg fun hmark => ne_toUInt8_of_le hb rfl hmark.1]
      rw [List.cons_append, byteSpans_of_none hget hnone, List.length_cons,
        Nat.add_comm trailing.length, ← Nat.add_assoc]
      exact hnext

/-- The scanner takes the pieces of a text one after the other. -/
theorem byteSpans_bytes (front t : Text) :
    byteSpans (front ++ t).bytes front.size = spansFrom front.size (pieces t) := by
  fun_induction pieces t generalizing front with
  | case1 =>
      rw [List.append_nil, byteSpans_of_length_le (Nat.le_of_eq (length_bytes front))]
      rfl
  | case2 c r p rest htake ih =>
      obtain ⟨b, bs, henc, hhead, -⟩ := exists_utf8EncodeChar c
      have hget := getElem?_append_length front.bytes b (bs ++ bytes r)
      rw [← bytes_append_cons henc, length_bytes] at hget
      -- A literal begins here, and the loop goes on at its end.
      have hstop := literalEnd?_bytes front (r := r) hhead
      rw [htake, Option.map_some] at hstop
      have hrest := ih (front ++ p.text)
      rw [List.append_assoc, Literal.text_append_of_take? htake] at hrest
      rw [byteSpans_of_some hget hstop, hrest, spansFrom_of_take? htake, size_append]
  | case3 c r htake ih =>
      obtain ⟨b, bs, henc, hhead, htrailing⟩ := exists_utf8EncodeChar c
      have hget := getElem?_append_length front.bytes b (bs ++ bytes r)
      rw [← bytes_append_cons henc, length_bytes] at hget
      have hnone := literalEnd?_bytes front (r := r) hhead
      rw [htake, Option.map_none] at hnone
      -- No literal begins here. The other bytes of the character are not ASCII and are passed.
      have hskip := byteSpans_trailing htrailing (front.bytes ++ [b]) (bytes r)
      rw [List.append_assoc, List.singleton_append, ← bytes_append_cons henc, List.length_append,
        length_bytes, List.length_singleton, Nat.add_assoc, Nat.add_comm 1,
        ← utf8Size_eq_of_utf8EncodeChar henc] at hskip
      have hrest := ih (front ++ [c])
      rw [List.append_assoc, List.singleton_append, size_append, size_cons, size_nil,
        Nat.add_zero] at hrest
      rw [byteSpans_of_none hget hnone, hskip, hrest]
      rfl

/-- Looking for literals on bytes finds the spans that are found on
characters. -/
theorem byteSpans_eq_literalSpans (t : Text) : byteSpans t.bytes 0 = literalSpans t :=
  byteSpans_bytes [] t

end Stylesheet
