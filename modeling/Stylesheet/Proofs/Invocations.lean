import Stylesheet.Mixin.Invocation
import Stylesheet.Proofs.Balance
import Stylesheet.Proofs.BlockSearch

/-!
# Invocations are found where they are

`Mixin.Invocation.cut` goes over a text once, and the search goes on behind each
invocation that it finds. `find_tokens` says which these are. `Signs` is a sign
and a name at a place of the text, and `IsToken` the invocations that can be read
there, with the parenthesis that matches found in the whole text. All that is
found is of this kind, nothing overlaps, and what can be read somewhere is found
unless it begins within an invocation that began before it.

`Cut.Scanned` is the way of any scan that may fail over a text. At one place,
`at?_cases` says all that can happen. `Found` is what holds from a place on, and
each step of the scan keeps it.
-/

set_option autoImplicit false

namespace Stylesheet

namespace Cut

/-! ### Scans -/

section

variable {α ε : Type} {find? : Text → Text → Except ε (Option (α × Nat))} {behind ahead : Text}

/-- How a scan went over a text from a place on, and what it found: past one
character, or over all characters of an item. -/
inductive Scanned (find? : Text → Text → Except ε (Option (α × Nat))) :
    Text → Text → List α → Prop where
  | done {behind : Text} : Scanned find? behind [] []
  | pass {behind r : Text} {c : Char} {items : List α} (hfind : find? behind (c :: r) = .ok none)
      (hrest : Scanned find? (c :: behind) r items) : Scanned find? behind (c :: r) items
  | take {behind taken rest : Text} {a : α} {items : List α}
      (hfind : find? behind (taken ++ rest) = .ok (some (a, taken.length)))
      (hrest : Scanned find? (taken.reverse ++ behind) rest items) :
      Scanned find? behind (taken ++ rest) (a :: items)

/-- The characters that still belong to an item are passed. -/
theorem tryScanFrom_skip (taken rest : Text) :
    tryScanFrom find? behind taken.length (taken ++ rest)
      = tryScanFrom find? (taken.reverse ++ behind) 0 rest := by
  induction taken generalizing behind with
  | nil => rfl
  | cons c taken ih =>
      rw [List.length_cons, List.cons_append, tryScanFrom, ih]
      simp

/-- A scan that succeeds went over the text so, if at every place an item takes
one character or more, and not more than there are. -/
theorem scanned_of_tryScanFrom {t : Text}
    (htaken : ∀ behind ahead a n, t = behind.reverse ++ ahead →
      find? behind ahead = .ok (some (a, n)) → 0 < n ∧ n ≤ ahead.length)
    (hplace : t = behind.reverse ++ ahead) {cut : Cut α}
    (h : tryScanFrom find? behind 0 ahead = .ok cut) : Scanned find? behind ahead cut.items := by
  induction hn : ahead.length using Nat.strongRecOn generalizing behind ahead cut with
  | _ n ih =>
    cases ahead with
    | nil =>
        cases h
        exact .done
    | cons c r =>
        rw [List.length_cons] at hn
        rw [tryScanFrom] at h
        split at h
        · cases h
        · rename_i a k hfind
          obtain ⟨hpos, hle⟩ := htaken _ _ _ _ hplace hfind
          obtain ⟨k, rfl⟩ := Nat.exists_eq_succ_of_ne_zero (Nat.ne_of_gt hpos)
          obtain ⟨cut', hcut, rfl⟩ := Node.exists_of_map_ok h
          -- The item has its characters, and the scan goes on behind them.
          have hlength : (r.take k).length = k := by
            rw [List.length_take]
            rw [List.length_cons] at hle
            omega
          have htext : c :: r = (c :: r.take k) ++ r.drop k := by
            rw [List.cons_append, List.take_append_drop]
          have hskip : tryScanFrom find? (c :: behind) k r
              = tryScanFrom find? ((r.take k).reverse ++ c :: behind) 0 (r.drop k) := by
            rw [← tryScanFrom_skip, hlength, List.take_append_drop]
          rw [Nat.succ_eq_add_one, Nat.add_sub_cancel, hskip] at hcut
          rw [htext, items_item]
          refine .take (by rw [← htext, hfind, List.length_cons, hlength]) ?_
          have hrest := ih (r.drop k).length (by rw [List.length_drop]; omega)
            (by simp [hplace]) hcut rfl
          simpa using hrest
        · rename_i hfind
          obtain ⟨cut', hcut, rfl⟩ := Node.exists_of_map_ok h
          rw [items_prepend]
          exact .pass hfind (ih r.length (by omega) (by simp [hplace]) hcut rfl)

/-- A failure that was mapped is the same failure. -/
theorem error_of_map {β : Type} {f : α → β} {x : Except ε α} {e : ε} (h : x.map f = .error e) :
    x = .error e := by
  cases x with
  | error e' => cases h; rfl
  | ok a => cases h

/-- A scan that fails fails at one of the places ahead. -/
theorem exists_of_tryScanFrom_error {skip : Nat} {e : ε}
    (h : tryScanFrom find? behind skip ahead = .error e) :
    ∃ front ahead', ahead = front ++ ahead' ∧ find? (front.reverse ++ behind) ahead' = .error e := by
  induction ahead generalizing behind skip with
  | nil => cases h
  | cons c r ih =>
      -- A failure further on is one ahead of this place too.
      have hlater : ∀ {skip : Nat}, tryScanFrom find? (c :: behind) skip r = .error e →
          ∃ front ahead', c :: r = front ++ ahead'
            ∧ find? (front.reverse ++ behind) ahead' = .error e := by
        intro skip hrest
        obtain ⟨front, ahead', rfl, hfind⟩ := ih hrest
        exact ⟨c :: front, ahead', rfl, by simpa using hfind⟩
      cases skip with
      | succ skip => exact hlater h
      | zero =>
          rw [tryScanFrom] at h
          split at h
          · rename_i hfind
            cases h
            exact ⟨[], c :: r, rfl, hfind⟩
          · exact hlater (error_of_map h)
          · exact hlater (error_of_map h)

end

end Cut

namespace Mixin

/-! ### Tokens -/

/-- What may stand before a sign: nothing, or one of these characters. -/
theorem isBoundary_iff {behind : Text} :
    isBoundary behind = true
      ↔ ∀ c ∈ behind.head?, c ∈ [' ', '\t', '\n', '\r', ';', '{', '}'] := by
  cases behind <;> simp [isBoundary]

/-- Where a class of characters ends, they are taken off. -/
theorem span_append {p : Char → Bool} {s r : Text} (hs : ∀ c ∈ s, p c = true)
    (hr : ∀ c ∈ r.head?, p c = false) : (s ++ r).takeWhile p = s ∧ (s ++ r).dropWhile p = r := by
  rw [List.takeWhile_append_of_pos hs, List.dropWhile_append_of_pos hs]
  cases r with
  | nil => simp
  | cons c r => simp [hr c rfl]

namespace Invocation

/-- A sign and a name stand at a place of a text, outside literals and at a
boundary. The name goes as far as it can, and `gap` are the blanks behind it. -/
structure Signs (t front name gap tail : Text) : Prop where
  divides : t = front ++ '+' :: (name ++ (gap ++ tail))
  outside : ¬ InLiteral t (Text.size front)
  boundary : ∀ c ∈ front.getLast?, c ∈ [' ', '\t', '\n', '\r', ';', '{', '}']
  name_ne_nil : name ≠ []
  name_chars : ∀ c ∈ name, isNameChar c = true
  name_ends : ∀ c ∈ (gap ++ tail).head?, isNameChar c = false
  gap_blank : Text.blank gap = true

/-- The invocations that stand in a text: with a semicolon behind the name, or
with a list of arguments up to the parenthesis that matches, and the semicolon
behind that if there is one. Each position is the size of what stands before. -/
inductive IsToken (t : Text) : Invocation → Prop where
  | bare {front name gap rest : Text} (hsigns : Signs t front name gap (';' :: rest)) :
      IsToken t ⟨name, [], Text.size front, Text.size (front ++ '+' :: (name ++ (gap ++ [';'])))⟩
  | call {front name gap list after : Text}
      (hsigns : Signs t front name gap ('(' :: (list ++ ')' :: after)))
      (hclose : findClose t (Text.size (front ++ '+' :: (name ++ gap))) .paren
        = .ok (Text.size (front ++ '+' :: (name ++ (gap ++ '(' :: list)))))
      (hafter : (after.dropWhile isBlank).head? ≠ some ';') :
      IsToken t ⟨name, if Text.blank list then [] else (splitTop ',' list).map unquote,
        Text.size front, Text.size (front ++ '+' :: (name ++ (gap ++ '(' :: (list ++ [')']))))⟩
  | ended {front name gap list space rest : Text}
      (hsigns : Signs t front name gap ('(' :: (list ++ ')' :: (space ++ ';' :: rest))))
      (hclose : findClose t (Text.size (front ++ '+' :: (name ++ gap))) .paren
        = .ok (Text.size (front ++ '+' :: (name ++ (gap ++ '(' :: list)))))
      (hspace : Text.blank space = true) :
      IsToken t ⟨name, if Text.blank list then [] else (splitTop ',' list).map unquote,
        Text.size front,
        Text.size (front ++ '+' :: (name ++ (gap ++ '(' :: (list ++ ')' :: (space ++ [';'])))))⟩

/-! ### One place -/

/-- Where a class of characters ends, another character or nothing follows. -/
theorem span_ends (p : Char → Bool) (r : Text) : ∀ c ∈ (r.dropWhile p).head?, p c = false := by
  intro c hc
  have hnot := List.head?_dropWhile_not p r
  rwa [Option.mem_def.mp hc] at hnot

/-- The search for a closing delimiter from a place on. -/
theorem findClose_append (front back : Text) (d : Delimiter) :
    findClose (front ++ back) (Text.size front) d
      = (d.close? back).elim
          (.error (.unclosed d.opening (Text.size front) (Text.newlines front + 1)))
          fun found => .ok (Text.size front + Text.size found.1) := by
  rw [findClose, Text.lineOf, Text.splitAtByte_size]
  dsimp only
  cases d.close? back <;> rfl

/-- The two searches for the parenthesis that matches agree: the one in what
lies ahead, and the one by positions in the whole text. -/
theorem close?_iff_findClose {front list after : Text} :
    Delimiter.paren.close? ('(' :: (list ++ ')' :: after)) = some ('(' :: list, after)
      ↔ findClose (front ++ '(' :: (list ++ ')' :: after)) (Text.size front) .paren
        = .ok (Text.size (front ++ '(' :: list)) := by
  rw [findClose_append, Text.size_append]
  constructor
  · intro hclose
    rw [hclose, Option.elim_some]
  · intro hfind
    cases hclose : Delimiter.paren.close? ('(' :: (list ++ ')' :: after)) with
    | none =>
        rw [hclose] at hfind
        cases hfind
    | some found =>
        obtain ⟨inside, rest⟩ := found
        rw [hclose, Option.elim_some] at hfind
        have hsize := Nat.add_left_cancel (Except.ok.inj hfind)
        have heq : ('(' :: list) ++ ')' :: after = inside ++ ')' :: rest := Delimiter.close?_eq hclose
        obtain ⟨rfl, hrest⟩ := Text.append_inj_of_size heq hsize.symm
        rw [(List.cons.inj hrest).2]

section

variable {t behind ahead front name gap tail : Text}

/-- Where something is found, a sign and a name stand, and a semicolon or a
parenthesis follows them. -/
theorem exists_signs (hplace : t = behind.reverse ++ ahead)
    (h : at? (literalSpans t) behind ahead ≠ .ok none) :
    ∃ name gap tail, ahead = '+' :: (name ++ (gap ++ tail)) ∧ Signs t behind.reverse name gap tail
      ∧ (tail.head? = some ';' ∨ tail.head? = some '(') := by
  unfold at? at h
  split at h
  · exact absurd rfl h
  rename_i hinside
  unfold take? at h
  split at h
  case h_2 => exact absurd rfl h
  rename_i r
  dsimp only at h
  split at h
  · exact absurd rfl h
  rename_i hname
  rw [Bool.or_eq_true, not_or, Bool.not_eq_true', Bool.not_eq_false, isBoundary_iff] at hname
  -- What is ahead, divided as the search divides it: the name, the blanks, and the rest.
  have hdivided : r = r.takeWhile isNameChar ++ ((r.dropWhile isNameChar).takeWhile isBlank
      ++ (r.dropWhile isNameChar).dropWhile isBlank) := by
    rw [List.takeWhile_append_dropWhile, List.takeWhile_append_dropWhile]
  refine ⟨_, _, _, congrArg _ hdivided, ⟨?_, ?_, ?_, ?_, ?_, ?_, ?_⟩, ?_⟩
  · rw [← hdivided, hplace]
  · rw [Text.size_reverse, ← insideAny_iff_inLiteral]
    exact fun h => hinside ⟨rfl, h⟩
  · rw [List.getLast?_reverse]
    exact hname.2
  · simpa using hname.1
  · exact fun c hc => List.mem_takeWhile_imp hc
  · rw [List.takeWhile_append_dropWhile]
    exact span_ends isNameChar r
  · exact List.all_takeWhile
  · split at h
    · rename_i htail
      exact .inl (congrArg List.head? htail)
    · rename_i htail
      exact .inr (congrArg List.head? htail)
    · exact absurd rfl h

/-- The list of arguments ends at the parenthesis that matches in the whole
text. -/
theorem Signs.close?_iff {list after : Text}
    (h : Signs t front name gap ('(' :: (list ++ ')' :: after))) :
    Delimiter.paren.close? ('(' :: (list ++ ')' :: after)) = some ('(' :: list, after)
      ↔ findClose t (Text.size (front ++ '+' :: (name ++ gap))) .paren
        = .ok (Text.size (front ++ '+' :: (name ++ (gap ++ '(' :: list)))) := by
  have hdivided : t = (front ++ '+' :: (name ++ gap)) ++ '(' :: (list ++ ')' :: after) := by
    rw [h.divides]
    simp
  have hlist : front ++ '+' :: (name ++ (gap ++ '(' :: list))
      = (front ++ '+' :: (name ++ gap)) ++ '(' :: list := by
    simp
  rw [hdivided, hlist]
  exact close?_iff_findClose

/-- What is read at a place with a sign and a name. -/
structure Reads (t front name gap tail : Text) : Prop where
  outside : insideAny (literalSpans t) (Text.size front.reverse) = false
  named : (name.isEmpty || !isBoundary front.reverse) = false
  takes : (name ++ (gap ++ tail)).takeWhile isNameChar = name
  leaves : (name ++ (gap ++ tail)).dropWhile isNameChar = gap ++ tail
  takes_gap : (gap ++ tail).takeWhile isBlank = gap
  leaves_gap : (gap ++ tail).dropWhile isBlank = tail

/-- The search reads the name and the blanks as they are. What follows the
blanks must not be one, or they would be longer. -/
theorem Signs.reads (h : Signs t front name gap tail) (hends : ∀ c ∈ tail.head?, isBlank c = false) :
    Reads t front name gap tail := by
  obtain ⟨htakes, hleaves⟩ := span_append h.name_chars h.name_ends
  obtain ⟨htakes_gap, hleaves_gap⟩ := span_append (Text.blank_iff.mp h.gap_blank) hends
  refine ⟨?_, ?_, htakes, hleaves, htakes_gap, hleaves_gap⟩
  · rw [← Bool.not_eq_true, insideAny_iff_inLiteral, Text.size_reverse]
    exact h.outside
  · have hboundary : isBoundary front.reverse = true := by
      rw [isBoundary_iff, List.head?_reverse]
      exact h.boundary
    simp [h.name_ne_nil, hboundary]

/-- A semicolon behind the name makes an invocation without arguments. -/
theorem at?_bare {rest : Text} (h : Signs t front name gap (';' :: rest)) :
    at? (literalSpans t) front.reverse ('+' :: (name ++ (gap ++ ';' :: rest)))
      = .ok (some (⟨name, [], Text.size front, Text.size (front ++ '+' :: (name ++ (gap ++ [';'])))⟩,
        ('+' :: (name ++ (gap ++ [';']))).length)) := by
  obtain ⟨houtside, hnamed, htakes, hleaves, htakes_gap, hleaves_gap⟩ := h.reads (by simp [isBlank])
  rw [at?, if_neg (by simp [houtside]), take?]
  simp only [htakes, hleaves, htakes_gap, hleaves_gap, hnamed, Text.size_reverse]
  simp [Text.size_append]

/-- A list of arguments that is not closed is an error, told by the place of
its parenthesis. -/
theorem at?_unclosed {rest : Text} (h : Signs t front name gap ('(' :: rest))
    (hclose : Delimiter.paren.close? ('(' :: rest) = none) :
    at? (literalSpans t) front.reverse ('+' :: (name ++ (gap ++ '(' :: rest)))
      = .error (.unclosed '(' (Text.size (front ++ '+' :: (name ++ gap)))
        (Text.newlines (front ++ '+' :: (name ++ gap)) + 1)) := by
  obtain ⟨houtside, hnamed, htakes, hleaves, htakes_gap, hleaves_gap⟩ := h.reads (by simp [isBlank])
  rw [at?, if_neg (by simp [houtside]), take?]
  simp only [htakes, hleaves, htakes_gap, hleaves_gap, hnamed, hclose, Text.size_reverse,
    Text.newlines_reverse]
  simp [Text.newlines_append]

/-- A list of arguments makes an invocation that ends with its parenthesis. -/
theorem at?_call {list after : Text} (h : Signs t front name gap ('(' :: (list ++ ')' :: after)))
    (hclose : Delimiter.paren.close? ('(' :: (list ++ ')' :: after)) = some ('(' :: list, after))
    (hafter : (after.dropWhile isBlank).head? ≠ some ';') :
    at? (literalSpans t) front.reverse ('+' :: (name ++ (gap ++ '(' :: (list ++ ')' :: after))))
      = .ok (some (⟨name, arguments list, Text.size front,
          Text.size (front ++ '+' :: (name ++ (gap ++ '(' :: (list ++ [')']))))⟩,
        ('+' :: (name ++ (gap ++ '(' :: (list ++ [')'])))).length)) := by
  obtain ⟨houtside, hnamed, htakes, hleaves, htakes_gap, hleaves_gap⟩ := h.reads (by simp [isBlank])
  rw [at?, if_neg (by simp [houtside]), take?]
  simp only [htakes, hleaves, htakes_gap, hleaves_gap, hnamed, hclose, Text.size_reverse]
  rw [if_neg Bool.false_ne_true]
  split
  · rename_i hsemicolon
    rw [hsemicolon] at hafter
    exact absurd rfl hafter
  · simp [Text.size_append]

/-- A semicolon behind the list belongs to the invocation, with the blanks
between them. -/
theorem at?_ended {list space rest : Text}
    (h : Signs t front name gap ('(' :: (list ++ ')' :: (space ++ ';' :: rest))))
    (hclose : Delimiter.paren.close? ('(' :: (list ++ ')' :: (space ++ ';' :: rest)))
      = some ('(' :: list, space ++ ';' :: rest))
    (hspace : Text.blank space = true) :
    at? (literalSpans t) front.reverse
        ('+' :: (name ++ (gap ++ '(' :: (list ++ ')' :: (space ++ ';' :: rest)))))
      = .ok (some (⟨name, arguments list, Text.size front,
          Text.size (front ++ '+' :: (name ++ (gap ++ '(' :: (list ++ ')' :: (space ++ [';'])))))⟩,
        ('+' :: (name ++ (gap ++ '(' :: (list ++ ')' :: (space ++ [';']))))).length)) := by
  obtain ⟨houtside, hnamed, htakes, hleaves, htakes_gap, hleaves_gap⟩ := h.reads (by simp [isBlank])
  obtain ⟨htakes_space, hleaves_space⟩ :=
    span_append (r := ';' :: rest) (Text.blank_iff.mp hspace) (by simp [isBlank])
  rw [at?, if_neg (by simp [houtside]), take?]
  simp only [htakes, hleaves, htakes_gap, hleaves_gap, hnamed, hclose, htakes_space, hleaves_space,
    Text.size_reverse]
  simp [Text.size_append]

/-- An invocation is found at a place and takes some of the characters ahead. -/
structure Takes (t behind : Text) (i : Invocation) (taken rest : Text) : Prop where
  at?_eq : at? (literalSpans t) behind (taken ++ rest) = .ok (some (i, taken.length))
  token : IsToken t i
  start_eq : i.start = Text.size behind
  stop_eq : i.stop = Text.size (behind.reverse ++ taken)
  ne_nil : taken ≠ []

/-- A list of arguments that is closed makes an invocation. -/
theorem Signs.exists_takes {rest inside after : Text} (h : Signs t behind.reverse name gap ('(' :: rest))
    (hclose : Delimiter.paren.close? ('(' :: rest) = some (inside, after)) :
    ∃ i taken back, '+' :: (name ++ (gap ++ '(' :: rest)) = taken ++ back ∧ Takes t behind i taken back := by
  obtain ⟨list, rfl⟩ : ∃ list, inside = '(' :: list :=
    ⟨_, Block.opening_of_close? (d := .paren) rfl hclose⟩
  obtain rfl : rest = list ++ ')' :: after := (List.cons.inj (Delimiter.close?_eq hclose)).2
  have hfind := h.close?_iff.mp hclose
  by_cases hafter : (after.dropWhile isBlank).head? = some ';'
  · -- The semicolon belongs to the invocation, with the blanks before it.
    obtain ⟨rest, hrest⟩ := List.head?_eq_some_iff.mp hafter
    obtain ⟨space, hspace, rfl⟩ : ∃ space, Text.blank space = true ∧ after = space ++ ';' :: rest :=
      ⟨after.takeWhile isBlank, List.all_takeWhile, by rw [← hrest, List.takeWhile_append_dropWhile]⟩
    have hat := at?_ended h hclose hspace
    have htext : '+' :: (name ++ (gap ++ '(' :: (list ++ ')' :: (space ++ ';' :: rest))))
        = '+' :: (name ++ (gap ++ '(' :: (list ++ ')' :: (space ++ [';'])))) ++ rest := by simp
    rw [List.reverse_reverse, htext] at hat
    exact ⟨_, _, rest, htext, hat, .ended h hfind hspace, Text.size_reverse behind, rfl, by simp⟩
  · have hat := at?_call h hclose hafter
    have htext : '+' :: (name ++ (gap ++ '(' :: (list ++ ')' :: after)))
        = '+' :: (name ++ (gap ++ '(' :: (list ++ [')']))) ++ after := by simp
    rw [List.reverse_reverse, htext] at hat
    exact ⟨_, _, after, htext, hat, .call h hfind hafter, Text.size_reverse behind, rfl, by simp⟩

/-- What can be found at a place: nothing, an invocation that stands there, or a
list of arguments that is not closed. -/
theorem at?_cases (hplace : t = behind.reverse ++ ahead) :
    at? (literalSpans t) behind ahead = .ok none
    ∨ (∃ i taken rest, ahead = taken ++ rest ∧ Takes t behind i taken rest)
    ∨ ∃ name gap rest e, Signs t behind.reverse name gap ('(' :: rest)
      ∧ at? (literalSpans t) behind ahead = .error e
      ∧ findClose t (Text.size (behind.reverse ++ '+' :: (name ++ gap))) .paren = .error e := by
  by_cases hnone : at? (literalSpans t) behind ahead = .ok none
  · exact .inl hnone
  -- A semicolon makes an invocation; a parenthesis does if it is closed.
  obtain ⟨name, gap, tail, rfl, hsigns, htail | htail⟩ := exists_signs hplace hnone
  · obtain ⟨rest, rfl⟩ := List.head?_eq_some_iff.mp htail
    have hat := at?_bare hsigns
    have htext : '+' :: (name ++ (gap ++ ';' :: rest)) = '+' :: (name ++ (gap ++ [';'])) ++ rest := by
      simp
    rw [List.reverse_reverse, htext] at hat
    exact .inr (.inl ⟨_, _, rest, htext, hat, .bare hsigns, Text.size_reverse behind, rfl, by simp⟩)
  · obtain ⟨rest, rfl⟩ := List.head?_eq_some_iff.mp htail
    cases hclose : Delimiter.paren.close? ('(' :: rest) with
    | some found => exact .inr (.inl (hsigns.exists_takes hclose))
    | none =>
        have hat := at?_unclosed hsigns hclose
        rw [List.reverse_reverse] at hat
        refine .inr (.inr ⟨name, gap, rest, _, hsigns, hat, ?_⟩)
        have hdivided : t = (behind.reverse ++ '+' :: (name ++ gap)) ++ '(' :: rest := by
          rw [hplace]
          simp
        rw [hdivided, findClose_append, hclose]
        rfl

/-- What is found stands there. -/
theorem takes_of_at? {i : Invocation} {n : Nat} (hplace : t = behind.reverse ++ ahead)
    (h : at? (literalSpans t) behind ahead = .ok (some (i, n))) :
    ∃ taken rest, ahead = taken ++ rest ∧ n = taken.length ∧ Takes t behind i taken rest := by
  rcases at?_cases hplace with hnone | ⟨i', taken, rest, rfl, htakes⟩ | ⟨_, _, _, _, -, herror, -⟩
  · rw [hnone] at h
    cases h
  · rw [htakes.at?_eq] at h
    cases h
    exact ⟨taken, rest, rfl, rfl, htakes⟩
  · rw [herror] at h
    cases h

/-- A failure is due to a list of arguments that is not closed. -/
theorem unclosed_of_at? {e : ScanError} (hplace : t = behind.reverse ++ ahead)
    (h : at? (literalSpans t) behind ahead = .error e) :
    ∃ name gap rest, Signs t behind.reverse name gap ('(' :: rest)
      ∧ findClose t (Text.size (behind.reverse ++ '+' :: (name ++ gap))) .paren = .error e := by
  rcases at?_cases hplace with hnone | ⟨_, _, _, rfl, htakes⟩ | ⟨name, gap, rest, e', hsigns, herror, hfind⟩
  · rw [hnone] at h
    cases h
  · rw [htakes.at?_eq] at h
    cases h
  · rw [herror] at h
    cases h
    exact ⟨name, gap, rest, hsigns, hfind⟩

/-- Where an invocation stands, it is found. -/
theorem at?_of_isToken {i : Invocation} (h : IsToken t i) :
    ∃ front back n, t = front ++ '+' :: back ∧ i.start = Text.size front
      ∧ at? (literalSpans t) front.reverse ('+' :: back) = .ok (some (i, n)) := by
  cases h with
  | bare hsigns => exact ⟨_, _, _, hsigns.divides, rfl, at?_bare hsigns⟩
  | call hsigns hclose hafter =>
      exact ⟨_, _, _, hsigns.divides, rfl, at?_call hsigns (hsigns.close?_iff.mpr hclose) hafter⟩
  | ended hsigns hclose hspace =>
      exact ⟨_, _, _, hsigns.divides, rfl, at?_ended hsigns (hsigns.close?_iff.mpr hclose) hspace⟩

/-- A place is told by its position. -/
theorem at?_of_start {i : Invocation} (hplace : t = behind.reverse ++ ahead) (h : IsToken t i)
    (hstart : i.start = Text.size behind) :
    ∃ n, at? (literalSpans t) behind ahead = .ok (some (i, n)) := by
  obtain ⟨front, back, n, hdivides, hfront, hat⟩ := at?_of_isToken h
  obtain ⟨rfl, rfl⟩ := Text.append_inj_of_size (hplace.symm.trans hdivides)
    (by rw [Text.size_reverse, ← hstart, hfront])
  rw [List.reverse_reverse] at hat
  exact ⟨n, hat⟩

end

/-! ### From a place on -/

/-- There is no place within a character. -/
theorem size_cons_le {behind r front back : Text} {c : Char}
    (h : behind.reverse ++ c :: r = front ++ back) (hlt : Text.size behind < Text.size front) :
    Text.size (c :: behind) ≤ Text.size front := by
  rcases List.append_eq_append_iff.mp h with ⟨between, rfl, hahead⟩ | ⟨between, hbehind, -⟩
  · cases between with
    | nil =>
        rw [List.append_nil, Text.size_reverse] at hlt
        exact absurd hlt (Nat.lt_irrefl _)
    | cons c' between =>
        obtain ⟨rfl, -⟩ := List.cons.inj hahead
        simp only [Text.size_append, Text.size_cons, Text.size_reverse]
        omega
  · have hsize := congrArg Text.size hbehind
    rw [Text.size_reverse, Text.size_append] at hsize
    omega

/-- What a search from a place on has found. -/
structure Found (t behind : Text) (items : List Invocation) : Prop where
  sound : ∀ i ∈ items, Text.size behind ≤ i.start ∧ i.start < i.stop ∧ IsToken t i
  ordered : items.Pairwise fun i j => i.stop ≤ j.start
  complete : ∀ i, IsToken t i → Text.size behind ≤ i.start →
    i ∈ items ∨ ∃ j ∈ items, j.start < i.start ∧ i.start < j.stop

namespace Found

variable {t behind : Text} {items : List Invocation}

/-- At the end no invocation begins. -/
theorem nothing (hplace : t = behind.reverse ++ []) : Found t behind [] := by
  refine ⟨by simp, .nil, fun i htoken hle => ?_⟩
  obtain ⟨front, back, n, hdivides, hfront, -⟩ := at?_of_isToken htoken
  have hsize := congrArg Text.size (hplace.symm.trans hdivides)
  have hpos := Char.utf8Size_pos '+'
  rw [List.append_nil] at hsize
  simp only [Text.size_append, Text.size_cons, Text.size_reverse] at hsize
  omega

/-- Over one character at which no invocation begins. -/
theorem char {c : Char} {r : Text} (hplace : t = behind.reverse ++ c :: r)
    (hat : at? (literalSpans t) behind (c :: r) = .ok none) (hnext : Found t (c :: behind) items) :
    Found t behind items := by
  have hsize : Text.size (c :: behind) = c.utf8Size + Text.size behind := Text.size_cons c behind
  refine ⟨fun i hi => ?_, hnext.ordered, fun i htoken hle => ?_⟩
  · obtain ⟨hstart, hstop, htoken⟩ := hnext.sound i hi
    exact ⟨by omega, hstop, htoken⟩
  · apply hnext.complete i htoken
    have hne : i.start ≠ Text.size behind := by
      intro hstart
      obtain ⟨n, hsome⟩ := at?_of_start hplace htoken hstart
      rw [hat] at hsome
      cases hsome
    obtain ⟨front, back, n, hdivides, hfront, -⟩ := at?_of_isToken htoken
    rw [hfront]
    exact size_cons_le (hplace.symm.trans hdivides) (by omega)

/-- Over an invocation. -/
theorem invocation {i : Invocation} {taken rest : Text} (hplace : t = behind.reverse ++ (taken ++ rest))
    (htakes : Takes t behind i taken rest) (hnext : Found t (taken.reverse ++ behind) items) :
    Found t behind (i :: items) := by
  have hstart := htakes.start_eq
  have hstop : i.stop = Text.size (taken.reverse ++ behind) := by
    rw [htakes.stop_eq, Text.size_append, Text.size_append, Text.size_reverse, Text.size_reverse,
      Nat.add_comm]
  have hlt : i.start < i.stop := by
    have hpos := Text.size_pos htakes.ne_nil
    rw [hstop, hstart, Text.size_append, Text.size_reverse]
    omega
  refine ⟨?_, ?_, fun k htoken hle => ?_⟩
  · rintro k (_ | ⟨_, hk⟩)
    · exact ⟨hstart.ge, hlt, htakes.token⟩
    · obtain ⟨hk, hrest⟩ := hnext.sound k hk
      exact ⟨by omega, hrest⟩
  · refine List.pairwise_cons.mpr ⟨fun k hk => ?_, hnext.ordered⟩
    rw [hstop]
    exact (hnext.sound k hk).1
  · -- An invocation that stands here is the one that was taken. One that begins later begins
    -- within it or behind it.
    rcases Nat.eq_or_lt_of_le hle with heq | hbehind
    · obtain ⟨n, hat⟩ := at?_of_start hplace htoken heq.symm
      rw [htakes.at?_eq] at hat
      cases hat
      exact .inl (List.mem_cons_self ..)
    · by_cases hinside : k.start < i.stop
      · exact .inr ⟨i, List.mem_cons_self .., by omega, hinside⟩
      · rcases hnext.complete k htoken (by omega) with hmem | ⟨j, hj, hcovers⟩
        · exact .inl (List.mem_cons_of_mem _ hmem)
        · exact .inr ⟨j, List.mem_cons_of_mem _ hj, hcovers⟩

end Found

/-- A scan finds what there is, by induction on how it went over the text. -/
theorem found_of_scanned {t behind ahead : Text} {items : List Invocation}
    (hplace : t = behind.reverse ++ ahead)
    (h : Cut.Scanned (at? (literalSpans t)) behind ahead items) : Found t behind items := by
  induction h with
  | done => exact .nothing hplace
  | pass hfind _ ih => exact .char hplace hfind (ih (by simp [hplace]))
  | @take behind taken rest a items hfind _ ih =>
      obtain ⟨taken', rest', htext, hlength, htakes⟩ := takes_of_at? hplace hfind
      obtain ⟨rfl, rfl⟩ := List.append_inj htext hlength
      exact .invocation hplace htakes (ih (by simp [hplace]))

/-- **Invocations are found where they are.** Each of them stands in the text,
they follow one another, and one that stands in the text and is not among them
begins within one of them. If the search fails, then at a list of arguments that
is not closed. -/
theorem find_tokens (t : Text) :
    (∀ found, find t = .ok found →
      found.Pairwise (fun i j => i.stop ≤ j.start)
      ∧ (∀ i ∈ found, i.start < i.stop ∧ IsToken t i)
      ∧ ∀ i, IsToken t i → i ∈ found ∨ ∃ j ∈ found, j.start < i.start ∧ i.start < j.stop)
    ∧ ∀ e, find t = .error e → ∃ front name gap rest, Signs t front name gap ('(' :: rest)
      ∧ findClose t (Text.size (front ++ '+' :: (name ++ gap))) .paren = .error e := by
  refine ⟨fun found h => ?_, fun e h => ?_⟩
  · obtain ⟨cut, hcut, rfl⟩ := Node.exists_of_map_ok h
    -- An invocation takes a character at least, and no more than there are.
    have htaken : ∀ behind ahead i n, t = behind.reverse ++ ahead →
        at? (literalSpans t) behind ahead = .ok (some (i, n)) → 0 < n ∧ n ≤ ahead.length := by
      intro behind ahead i n hplace hat
      obtain ⟨taken, rest, rfl, rfl, htakes⟩ := takes_of_at? hplace hat
      exact ⟨List.length_pos_iff.mpr htakes.ne_nil, by simp⟩
    have hplace : t = ([] : Text).reverse ++ t := rfl
    have hfound := found_of_scanned hplace (Cut.scanned_of_tryScanFrom htaken hplace hcut)
    exact ⟨hfound.ordered, fun i hi => (hfound.sound i hi).2,
      fun i htoken => hfound.complete i htoken (Nat.zero_le _)⟩
  · obtain ⟨front, ahead, htext, hat⟩ := Cut.exists_of_tryScanFrom_error (Cut.error_of_map h)
    rw [List.append_nil] at hat
    have hplace : t = front.reverse.reverse ++ ahead := by rw [List.reverse_reverse, htext]
    exact ⟨_, unclosed_of_at? hplace hat⟩

/-- A combinator, signs in a string and in a list of arguments, and an invocation
that no boundary goes before. -/
def signedText : Text := ".a+b;\x7b+x;+mix ('é;', f( +q;,3)) ; '+y;' +z( )+w;\x7d".toList

/-- The invocations in this text: the sign in the string is none, nor the one
in the list of arguments or the one behind a parenthesis. -/
def signedInvocations : List Invocation :=
  [⟨"x".toList, [], 6, 9⟩, ⟨"mix".toList, ["é;".toList, "f( +q;,3)".toList], 9, 34⟩,
    ⟨"z".toList, [], 41, 46⟩]

/-- They are found, and an open list of arguments is reported. -/
theorem find_tokens_signed :
    find signedText = .ok signedInvocations
    ∧ (∀ i ∈ signedInvocations, i.start < i.stop ∧ IsToken signedText i)
    ∧ (∀ i, IsToken signedText i →
      i ∈ signedInvocations ∨ ∃ j ∈ signedInvocations, j.start < i.start ∧ i.start < j.stop)
    ∧ find "a +m (+b;".toList = .error (.unclosed '(' 5 1)
    ∧ ∃ front name gap rest, Signs "a +m (+b;".toList front name gap ('(' :: rest)
      ∧ findClose "a +m (+b;".toList (Text.size (front ++ '+' :: (name ++ gap))) .paren
        = .error (.unclosed '(' 5 1) := by
  have hfind : find signedText = .ok signedInvocations := by decide +kernel
  have hopen : find "a +m (+b;".toList = .error (.unclosed '(' 5 1) := by decide +kernel
  obtain ⟨-, hsound, hcomplete⟩ := (find_tokens signedText).1 _ hfind
  exact ⟨hfind, hsound, hcomplete, hopen, (find_tokens _).2 _ hopen⟩

end Invocation

end Mixin

end Stylesheet
