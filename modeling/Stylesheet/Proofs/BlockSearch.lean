import Stylesheet.Block
import Stylesheet.Proofs.Brackets
import Stylesheet.Proofs.Offsets

/-!
# Blocks are found where they are

`Block.cut` goes over a text once, from place to place and from the end of one
block to the place behind it. `find_exact` says what comes of it, by positions
in the text. The blocks that are found stand one behind the other, each made of
a header that the pattern takes, blanks, and a body between two delimiters that
match (`IsBlockAt`). And none is missed: wherever a block could begin (`Begins`),
one does, or the place is inside a block that began before it.

The text is then put together again in two ways, from the front with something
for each block (`rebuildFrom`), and by taking out the blocks from the last to the
first (`removeAll`), so that the positions of those before stay right. Both ways
work with the positions of the blocks and with the text. What `Block.replace` and
`Block.extract` make of the cut is the same, because the positions are those
of the parts (`Placed`).

`Found` is what holds of a search from any place on. It is shown for the three
steps of the search, and so for the search (`found_cutFrom`). That it makes no
difference whether every place is looked at or only those where the pattern takes
something (`findByMatches`) is shown along the same steps.
-/

set_option autoImplicit false

namespace Stylesheet

namespace Block

/-! ### Where blocks are -/

/-- A block may begin at a place, which is given by what stands before it,
nearest character first, and what lies ahead. The pattern takes a header there,
blanks and the opening delimiter follow it, and the place is accepted and outside
literals. -/
structure Begins (search : Search) (t behind ahead : Text) (m : PatternMatch) : Prop where
  divides : t = behind.reverse ++ ahead
  taken : search.pattern ahead = some m
  opens : ((ahead.drop m.length).dropWhile isBlank).head? = some search.delimiter.opening
  accepted : search.accept behind = true
  outside : ¬ InLiteral t (Text.size behind)

/-- A block of a text begins at a place, with a header that the pattern takes
and `gap` between the header and the body. -/
structure IsBlockAt (search : Search) (t : Text) (b : Block) (behind ahead : Text)
    (m : PatternMatch) (gap : Text) : Prop extends Begins search t behind ahead m where
  start_eq : b.start = Text.size behind
  header_eq : b.header = ahead.take m.length
  groups_eq : b.groups = m.groups
  blank : Text.blank gap = true
  full_eq : b.full
    = b.header ++ (gap ++ search.delimiter.opening :: (b.body ++ [search.delimiter.closing]))
  slice_eq : Text.slice t b.start b.stop = b.full
  close_eq : findClose t (b.start + Text.size b.header + Text.size gap) search.delimiter
    = .ok (b.stop - 1)

/-- Blocks stand behind the texts before them, from a position on. -/
def Placed : Nat → List (Text × Block) → Prop
  | _, [] => True
  | base, (gap, b) :: parts =>
    b.start = base + Text.size gap ∧ b.stop = b.start + Text.size b.full ∧ b.start < b.stop
      ∧ Placed b.stop parts

/-- Puts a text together from a position on: what stands between the blocks,
and something for each block. -/
def rebuildFrom (t : Text) (f : Block → Text) : Nat → List Block → Text
  | last, [] => (Text.splitAtByte last t).2
  | last, b :: blocks => Text.slice t last b.start ++ (f b ++ rebuildFrom t f b.stop blocks)

/-- Takes blocks out of a text, the last one first. -/
def removeAll (t : Text) (blocks : List Block) : Text :=
  blocks.foldr (fun b r => (Text.splitAtByte b.start r).1 ++ (Text.splitAtByte b.stop r).2) t

/-! ### Searching by matches -/

/-- The first place, from a place on, at which a pattern takes a header. -/
def firstMatch (pattern : Pattern) (behind ahead : Text) : Option (Text × Text) :=
  if (pattern ahead).isSome then some (behind, ahead)
  else match ahead with
    | [] => none
    | c :: r => firstMatch pattern (c :: behind) r

/-- The first match is ahead. -/
theorem length_le_of_firstMatch {pattern : Pattern} {behind ahead behind' ahead' : Text}
    (h : firstMatch pattern behind ahead = some (behind', ahead')) :
    ahead'.length ≤ ahead.length := by
  fun_induction firstMatch pattern behind ahead with
  | case1 behind ahead hpattern =>
      cases h
      exact Nat.le_refl _
  | case2 behind hpattern => cases h
  | case3 behind c r hpattern ih => exact Nat.le_succ_of_le (ih h)

/-- Searches for blocks from match to match. Behind a block it goes on at its
end, and behind a match at which no block begins with the next character. -/
def findByMatches (search : Search) (spans : List Span) (behind ahead : Text) :
    Except ScanError (List Block) :=
  match _hmatch : firstMatch search.pattern behind ahead with
  | none => .ok []
  | some (behind', ahead') =>
    match _hat : at? search spans behind' ahead' with
    | .error e => .error e
    | .ok (some (block, rest)) =>
      (findByMatches search spans (block.full.reverse ++ behind') rest).map (block :: ·)
    | .ok none =>
      if _hend : ahead' = [] then .ok []
      else findByMatches search spans (ahead'.take 1 ++ behind') (ahead'.drop 1)
termination_by ahead.length
decreasing_by
  · have hlength := length_le_of_firstMatch _hmatch
    have htext := congrArg List.length (full_append_of_at? _hat)
    have hbody := length_body_lt_of_at? _hat
    simp only [List.length_append] at htext
    omega
  · have hlength := length_le_of_firstMatch _hmatch
    have hpos := List.length_pos_of_ne_nil _hend
    simp only [List.length_drop]
    omega

section

variable {search : Search} {spans : List Span} {behind ahead : Text}

/-- Where a block or an error is found, the pattern takes something. -/
theorem isSome_pattern_of_at? {found : Except ScanError (Option (Block × Text))}
    (hat : at? search spans behind ahead = found) (h : found ≠ .ok none) :
    (search.pattern ahead).isSome = true := by
  rw [Option.isSome_iff_ne_none]
  intro hnone
  exact h (by simp [← hat, at?, hnone])

/-- A search by matches goes on at the first match. -/
theorem findByMatches_of_firstMatch {behind' ahead' : Text}
    (h : firstMatch search.pattern behind ahead = some (behind', ahead')) :
    findByMatches search spans behind ahead
      = match at? search spans behind' ahead' with
        | .error e => .error e
        | .ok (some (block, rest)) =>
          (findByMatches search spans (block.full.reverse ++ behind') rest).map (block :: ·)
        | .ok none =>
          if ahead' = [] then .ok []
          else findByMatches search spans (ahead'.take 1 ++ behind') (ahead'.drop 1) := by
  rw [findByMatches, h]
  dsimp only
  split <;> rename_i hat <;> simp only [hat, dite_eq_ite]

/-- If the pattern takes something at a place, this is the first match. -/
theorem firstMatch_here (h : (search.pattern ahead).isSome = true) :
    firstMatch search.pattern behind ahead = some (behind, ahead) := by
  unfold firstMatch
  rw [if_pos h]

/-- Where it takes nothing, the place is skipped. -/
theorem findByMatches_skip {c : Char} {r : Text}
    (h : (search.pattern (c :: r)).isSome = false) :
    findByMatches search spans behind (c :: r) = findByMatches search spans (c :: behind) r := by
  have hfirst : firstMatch search.pattern behind (c :: r)
      = firstMatch search.pattern (c :: behind) r := by
    rw [firstMatch, if_neg (by simp [h])]
  rw [findByMatches, findByMatches, hfirst]

/-- A place without a block is passed, whether the pattern takes something there
or not. -/
theorem findByMatches_pass {c : Char} {r : Text}
    (hat : at? search spans behind (c :: r) = .ok none) :
    findByMatches search spans behind (c :: r) = findByMatches search spans (c :: behind) r := by
  cases hpattern : (search.pattern (c :: r)).isSome with
  | true =>
      rw [findByMatches_of_firstMatch (firstMatch_here hpattern), hat]
      rfl
  | false => exact findByMatches_skip hpattern

/-- At the end there is no block. -/
theorem findByMatches_nil (hat : at? search spans behind [] = .ok none) :
    findByMatches search spans behind [] = .ok [] := by
  cases hpattern : (search.pattern []).isSome with
  | true =>
      rw [findByMatches_of_firstMatch (firstMatch_here hpattern), hat]
      rfl
  | false =>
      have hfirst : firstMatch search.pattern behind [] = none := by
        rw [firstMatch, if_neg (by simp [hpattern])]
      rw [findByMatches, hfirst]

end

/-- Searching from match to match and from place to place is the same. -/
theorem findByMatches_eq (search : Search) (spans : List Span) (behind ahead : Text) :
    findByMatches search spans behind ahead = (cutFrom search spans behind ahead).map Cut.items := by
  fun_induction cutFrom search spans behind ahead with
  -- At a block or an error the pattern matches, so both
  -- searches stop there; any other place is passed.
  | case1 behind ahead e hat =>
      have hmatch := isSome_pattern_of_at? hat (by simp)
      rw [findByMatches_of_firstMatch (firstMatch_here hmatch), hat]
      rfl
  | case2 behind ahead b rest hat e hrec ih =>
      have hmatch := isSome_pattern_of_at? hat (by simp)
      rw [findByMatches_of_firstMatch (firstMatch_here hmatch), hat]
      simp only [ih, hrec]
      rfl
  | case3 behind ahead b rest hat cut hrec ih =>
      have hmatch := isSome_pattern_of_at? hat (by simp)
      rw [findByMatches_of_firstMatch (firstMatch_here hmatch), hat]
      simp only [ih, hrec]
      rfl
  | case4 behind hat =>
      rw [findByMatches_nil hat]
      rfl
  | case5 behind c r hat e hrec ih => rw [findByMatches_pass hat, ih, hrec]
  | case6 behind c r hat cut hrec ih =>
      rw [findByMatches_pass hat, ih, hrec]
      simp only [Except.map, Cut.items_prepend]

/-! ### One place -/

section

variable {search : Search} {t behind ahead : Text}

/-- What a search for the closing delimiter goes over begins with the
opening one. -/
theorem opening_of_close? {d : Delimiter} {u inside rest : Text}
    (hopens : u.head? = some d.opening) (hclose : d.close? u = some (inside, rest)) :
    inside = d.opening :: inside.drop 1 := by
  have htext := Delimiter.close?_eq hclose
  cases inside with
  | nil =>
      rw [htext] at hopens
      exact absurd (Option.some.inj hopens).symm d.opening_ne_closing
  | cons c inside =>
      rw [htext] at hopens
      rw [← Option.some.inj hopens]
      rfl

/-- The block at a place. -/
theorem exists_of_at? {b : Block} {rest : Text} (hplace : t = behind.reverse ++ ahead)
    (h : at? search (literalSpans t) behind ahead = .ok (some (b, rest))) :
    b.stop = b.start + Text.size b.full ∧ b.start < b.stop
      ∧ ∃ m gap, IsBlockAt search t b behind ahead m gap := by
  have hslice : Text.slice t (Text.size behind) (Text.size behind + Text.size b.full) = b.full := by
    rw [hplace, ← full_append_of_at? h, ← Text.size_reverse behind, Text.slice_size]
  unfold at? at h
  split at h
  · cases h
  rename_i m htaken
  dsimp only at h
  split at h
  case isFalse => cases h
  rename_i hbegins
  obtain ⟨hopens, haccept, hinside⟩ := hbegins
  split at h
  · cases h
  rename_i inside rest' hclose
  cases h
  have houtside : ¬ InLiteral t (Text.size behind) := by
    rw [← insideAny_iff_inLiteral, hinside]
    exact Bool.false_ne_true
  have hopening := opening_of_close? hopens hclose
  -- The opening delimiter stands behind the header and the blanks.
  have hdivided : t = (behind.reverse ++ (ahead.take m.length
      ++ (ahead.drop m.length).takeWhile isBlank)) ++ (ahead.drop m.length).dropWhile isBlank := by
    rw [List.append_assoc, List.append_assoc, List.takeWhile_append_dropWhile,
      List.take_append_drop, hplace]
  have hcut : Text.splitAtByte (Text.size behind + Text.size (ahead.take m.length)
      + Text.size ((ahead.drop m.length).takeWhile isBlank)) t
      = (behind.reverse ++ (ahead.take m.length ++ (ahead.drop m.length).takeWhile isBlank),
        (ahead.drop m.length).dropWhile isBlank) := by
    have hsize := Text.splitAtByte_size
      (behind.reverse ++ (ahead.take m.length ++ (ahead.drop m.length).takeWhile isBlank))
      ((ahead.drop m.length).dropWhile isBlank)
    rwa [← hdivided, Text.size_append, Text.size_append, Text.size_reverse, ← Nat.add_assoc] at hsize
  refine ⟨rfl, ?_, m, (ahead.drop m.length).takeWhile isBlank,
    ⟨hplace, htaken, hopens, haccept, houtside⟩, rfl, rfl, rfl, List.all_takeWhile, ?_, hslice, ?_⟩
  · simp only [Text.size_append, Text.size_cons, search.delimiter.size_closing]
    omega
  · rw [← List.cons_append, ← hopening]
    simp
  · rw [findClose, hcut]
    simp only [hclose, Text.size_append, Text.size_cons, Text.size_nil, Text.size_reverse,
      search.delimiter.size_closing]
    congr 1
    omega

/-- A place without a block is one at which none may begin. -/
theorem not_begins_of_at? (h : at? search (literalSpans t) behind ahead = .ok none)
    (m : PatternMatch) : ¬ Begins search t behind ahead m := by
  intro hbegins
  have hinside : insideAny (literalSpans t) (Text.size behind) = false := by
    rw [← Bool.not_eq_true, insideAny_iff_inLiteral]
    exact hbegins.outside
  unfold at? at h
  simp only [hbegins.taken] at h
  rw [if_pos ⟨hbegins.opens, hbegins.accepted, hinside⟩] at h
  split at h <;> cases h

end

/-! ### From a place on -/

/-- What a search from a place on has found. -/
structure Found (search : Search) (t behind ahead : Text) (c : Cut Block) : Prop where
  placed : Placed (Text.size behind) c.parts
  sound : ∀ b ∈ c.items, ∃ behind' ahead' m gap, IsBlockAt search t b behind' ahead' m gap
  complete : ∀ front ahead' m, ahead = front ++ ahead' →
    Begins search t (front.reverse ++ behind) ahead' m →
    ∃ b ∈ c.items, b.start ≤ Text.size behind + Text.size front
      ∧ Text.size behind + Text.size front < b.stop

/-- Text in front moves the blocks. -/
theorem Placed.prepend {base : Nat} {s : Text} {c : Cut Block}
    (h : Placed (base + Text.size s) c.parts) : Placed base (c.prepend s).parts := by
  obtain ⟨parts, rest⟩ := c
  cases parts with
  | nil => exact trivial
  | cons part parts =>
      obtain ⟨gap, b⟩ := part
      obtain ⟨hstart, hrest⟩ := h
      exact ⟨by rw [hstart, Text.size_append, Nat.add_assoc], hrest⟩

namespace Found

variable {search : Search} {t behind ahead : Text} {c : Cut Block}

/-- At the end there is nothing more to find. -/
theorem nothing (h : at? search (literalSpans t) behind [] = .ok none) :
    Found search t behind [] (.whole []) := by
  refine ⟨trivial, by simp, ?_⟩
  intro front ahead' m hahead hbegins
  obtain ⟨rfl, rfl⟩ := List.append_eq_nil_iff.mp hahead.symm
  exact absurd hbegins (not_begins_of_at? h m)

/-- Over one character at which no block begins. -/
theorem char {x : Char} (h : at? search (literalSpans t) behind (x :: ahead) = .ok none)
    (hnext : Found search t (x :: behind) ahead c) :
    Found search t behind (x :: ahead) (c.prepend [x]) := by
  have hsize : Text.size (x :: behind) = Text.size behind + Text.size [x] := by
    rw [Text.size_cons, Text.size_cons, Text.size_nil]
    omega
  refine ⟨Placed.prepend (hsize ▸ hnext.placed), ?_, ?_⟩
  · rw [Cut.items_prepend]
    exact hnext.sound
  · intro front ahead' m hahead hbegins
    rw [Cut.items_prepend]
    cases front with
    | nil =>
        obtain rfl : x :: ahead = ahead' := hahead
        exact absurd hbegins (not_begins_of_at? h m)
    | cons y front =>
        obtain ⟨rfl, rfl⟩ := List.cons.inj hahead
        obtain ⟨b, hb, hstart, hstop⟩ := hnext.complete front ahead' m rfl (by simpa using hbegins)
        rw [Text.size_cons] at hstart hstop ⊢
        exact ⟨b, hb, by omega, by omega⟩

/-- Over a block. -/
theorem block {b : Block} {rest : Text} (hplace : t = behind.reverse ++ ahead)
    (h : at? search (literalSpans t) behind ahead = .ok (some (b, rest)))
    (hnext : Found search t (b.full.reverse ++ behind) rest c) :
    Found search t behind ahead (c.item b) := by
  obtain ⟨hstop, hlt, m, gap, hb⟩ := exists_of_at? hplace h
  have hstart := hb.start_eq
  have hbehind : Text.size (b.full.reverse ++ behind) = b.stop := by
    rw [Text.size_append, Text.size_reverse, hstop, hstart]
    omega
  refine ⟨⟨by simpa using hstart, hstop, hlt, hbehind ▸ hnext.placed⟩, ?_, ?_⟩
  · rw [Cut.items_item, List.forall_mem_cons]
    exact ⟨⟨behind, ahead, m, gap, hb⟩, hnext.sound⟩
  · intro front ahead' m' hahead hbegins
    rw [Cut.items_item]
    rw [← full_append_of_at? h] at hahead
    -- The place is inside the block, or behind it and at one of the later places.
    by_cases hinside : Text.size front < Text.size b.full
    · exact ⟨b, List.mem_cons_self, by omega, by omega⟩
    · obtain ⟨more, rfl, rfl⟩ : ∃ more, front = b.full ++ more ∧ rest = more ++ ahead' := by
        rcases List.append_eq_append_iff.mp hahead with hmore | ⟨more, hfull, rfl⟩
        · exact hmore
        · -- The block would be as long as what stands before the place.
          have hnil : more = [] := by
            by_contra hne
            have hpos := Text.size_pos hne
            rw [hfull, Text.size_append] at hinside
            omega
          subst hnil
          exact ⟨[], by simpa using hfull.symm, rfl⟩
      obtain ⟨b', hb', hstart', hstop'⟩ :=
        hnext.complete more ahead' m' rfl (by simpa using hbegins)
      rw [hbehind, hstop] at hstart' hstop'
      rw [Text.size_append]
      exact ⟨b', List.mem_cons_of_mem b hb', by omega, by omega⟩

end Found

/-- A search from a place on. -/
theorem found_cutFrom {search : Search} {t behind ahead : Text} {c : Cut Block}
    (hplace : t = behind.reverse ++ ahead)
    (h : cutFrom search (literalSpans t) behind ahead = .ok c) : Found search t behind ahead c := by
  fun_induction cutFrom search (literalSpans t) behind ahead generalizing c with
  | case1 behind ahead e hat => cases h
  | case2 behind ahead b rest hat e hrec ih => cases h
  | case3 behind ahead b rest hat cut hrec ih =>
      cases h
      refine .block hplace hat (ih ?_ hrec)
      rw [hplace, ← full_append_of_at? hat]
      simp
  | case4 behind hat =>
      cases h
      exact .nothing hat
  | case5 behind x r hat e hrec ih => cases h
  | case6 behind x r hat cut hrec ih =>
      cases h
      exact .char hat (ih (by simp [hplace]) hrec)

/-! ### Putting the text together -/

section

variable {parts : List (Text × Block)} {rest front : Text}

/-- Blocks that are placed stand one behind the other. -/
theorem Placed.ordered {base : Nat} (h : Placed base parts) :
    (∀ b ∈ parts.map Prod.snd, base ≤ b.start ∧ b.start < b.stop)
      ∧ (parts.map Prod.snd).Pairwise fun b b' => b.stop ≤ b'.start := by
  induction parts generalizing base with
  | nil => simp
  | cons part parts ih =>
      obtain ⟨gap, b⟩ := part
      obtain ⟨hstart, -, hlt, hrest⟩ := h
      obtain ⟨hbounds, hpairs⟩ := ih hrest
      rw [List.map_cons, List.forall_mem_cons, List.pairwise_cons]
      dsimp only
      refine ⟨⟨⟨by omega, hlt⟩, fun b' hb' => ?_⟩, fun b' hb' => (hbounds b' hb').1, hpairs⟩
      have hb := hbounds b' hb'
      exact ⟨by omega, hb.2⟩

/-- The end of the first block is the size of all up to it. -/
theorem Placed.size_eq {gap : Text} {b : Block} (h : Placed (Text.size front) ((gap, b) :: parts)) :
    Text.size (front ++ (gap ++ b.full)) = b.stop := by
  obtain ⟨hstart, hstop, -, -⟩ := h
  rw [Text.size_append, Text.size_append, hstop, hstart, Nat.add_assoc]

/-- The first block and what stands before it. -/
theorem append_fill_cons (f : Block → Text) (front gap : Text) (b : Block) :
    front ++ Cut.fill f ⟨(gap, b) :: parts, rest⟩
      = front ++ (gap ++ f b) ++ Cut.fill f ⟨parts, rest⟩ := by
  simp [Cut.fill]

/-- Rebuilding from the front. `front` is what was rebuilt before, and the
induction is on the blocks that are left. -/
theorem rebuildFrom_placed (f : Block → Text) (h : Placed (Text.size front) parts) :
    rebuildFrom (front ++ Cut.fill full ⟨parts, rest⟩) f (Text.size front) (parts.map Prod.snd)
      = Cut.fill f ⟨parts, rest⟩ := by
  induction parts generalizing front with
  | nil => simp [rebuildFrom, Cut.fill, Text.splitAtByte_size]
  | cons part parts ih =>
      obtain ⟨gap, b⟩ := part
      have hbehind := h.size_eq
      obtain ⟨hstart, -, -, hrest⟩ := h
      rw [← hbehind] at hrest
      have hnext := ih hrest
      rw [← append_fill_cons, hbehind] at hnext
      have hgap : Text.slice (front ++ Cut.fill full ⟨(gap, b) :: parts, rest⟩) (Text.size front)
          b.start = gap := by
        rw [hstart, append_fill_cons, List.append_assoc, List.append_assoc, Text.slice_size]
      rw [List.map_cons, rebuildFrom, hgap, hnext]
      simp [Cut.fill]

/-- Taking blocks out from behind, so that the positions of those before them
stay right. -/
theorem removeAll_placed (h : Placed (Text.size front) parts) :
    removeAll (front ++ Cut.fill full ⟨parts, rest⟩) (parts.map Prod.snd)
      = front ++ Cut.gaps ⟨parts, rest⟩ := by
  induction parts generalizing front with
  | nil => simp [removeAll, Cut.fill, Cut.gaps]
  | cons part parts ih =>
      obtain ⟨gap, b⟩ := part
      have hbehind := h.size_eq
      obtain ⟨hstart, -, -, hrest⟩ := h
      rw [← hbehind] at hrest
      have hnext := ih hrest
      rw [← append_fill_cons] at hnext
      -- The blocks behind are gone already, and what stands before them has not moved.
      have hcut : Text.splitAtByte b.start (front ++ (gap ++ b.full) ++ Cut.gaps ⟨parts, rest⟩)
          = (front ++ gap, b.full ++ Cut.gaps ⟨parts, rest⟩) := by
        rw [hstart, ← Text.size_append, ← List.append_assoc, List.append_assoc, Text.splitAtByte_size]
      show (Text.splitAtByte b.start (removeAll _ (parts.map Prod.snd))).1
        ++ (Text.splitAtByte b.stop (removeAll _ (parts.map Prod.snd))).2 = _
      rw [hnext, hcut, ← hbehind, Text.splitAtByte_size]
      simp [Cut.gaps]

/-- What is left without the blocks is the text with nothing in their place. -/
theorem gaps_eq_fill {α : Type} (c : Cut α) : c.gaps = c.fill fun _ => [] := by
  obtain ⟨parts, rest⟩ := c
  induction parts with
  | nil => rfl
  | cons part parts ih =>
      simp only [Cut.gaps, Cut.fill] at ih ⊢
      simp [ih]

end

/-- A search that succeeds finds blocks that stand one behind the other. Each is
the text between its positions: a header that the pattern takes, at a place that is
accepted and outside literals, blanks, and a body between an opening delimiter and
the one that `findClose` finds for it. Wherever a block may begin, one does, unless
the place is inside a block that begins before it.

The text with the blocks replaced is what is rebuilt from the front by their
positions. With the blocks themselves this is the text as it was, and with nothing in
their place it is the text that is left when they are taken out from behind. The same
blocks are found when the search goes from match to match. -/
theorem find_exact (search : Search) (t : Text) {blocks : List Block}
    (h : find search t = .ok blocks) :
    blocks.Pairwise (fun b b' => b.stop ≤ b'.start)
    ∧ (∀ b ∈ blocks, b.start < b.stop
      ∧ ∃ behind ahead m gap, IsBlockAt search t b behind ahead m gap)
    ∧ (∀ behind ahead m, Begins search t behind ahead m →
      ∃ b ∈ blocks, b.start = Text.size behind
        ∨ b.start < Text.size behind ∧ Text.size behind < b.stop)
    ∧ (∀ f, replace search f t = .ok (rebuildFrom t f 0 blocks))
    ∧ replace search full t = .ok t
    ∧ extract search t = .ok (removeAll t blocks, blocks)
    ∧ replace search (fun _ => []) t = .ok (removeAll t blocks)
    ∧ findByMatches search (literalSpans t) [] t = .ok blocks := by
  cases hcut : cut search t with
  | error e =>
      rw [find, hcut] at h
      cases h
  | ok c =>
      rw [find, hcut] at h
      cases h
      -- All is said of the cut text: where its blocks stand, and what it is filled with.
      have hfound : Found search t [] t c := found_cutFrom rfl hcut
      have hfill : c.fill full = t := fill_full_of_cut hcut
      obtain ⟨hbounds, hpairs⟩ := hfound.placed.ordered
      have hrebuild : ∀ f, rebuildFrom (c.fill full) f 0 c.items = c.fill f :=
        fun f => rebuildFrom_placed f hfound.placed
      have hremove : removeAll (c.fill full) c.items = c.gaps := removeAll_placed hfound.placed
      rw [hfill] at hrebuild hremove
      refine ⟨hpairs, fun b hb => ⟨(hbounds b hb).2, hfound.sound b hb⟩, ?_, ?_, ?_, ?_, ?_, ?_⟩
      · -- A place where a block may begin is that of a block or lies within one.
        intro behind ahead m hbegins
        obtain ⟨b, hb, hstart, hstop⟩ :=
          hfound.complete behind.reverse ahead m hbegins.divides (by simpa using hbegins)
        rw [Text.size_nil, Nat.zero_add, Text.size_reverse] at hstart hstop
        exact ⟨b, hb, by omega⟩
      · intro f
        rw [replace, hcut, hrebuild]
        rfl
      · rw [replace, hcut]
        exact congrArg Except.ok hfill
      · rw [extract, hcut, hremove]
        rfl
      · rw [replace, hcut, hremove, gaps_eq_fill]
        rfl
      · have hsearch : cutFrom search (literalSpans t) [] t = .ok c := hcut
        rw [findByMatches_eq, hsearch]
        rfl

/-- Marks, unless there is an `x` before them. -/
def markSearch : Search where
  pattern := Pattern.exactly "@m".toList
  accept behind := behind.head? != some 'x'

/-- A header without a body, one inside a string, a block with another one in it,
one behind an `x`, and one behind a wide character. -/
def markedText : Text :=
  "@m;'@m\x7b' @m \x7ba\x7b@m\x7b\x7d\x7d\x7dx@m\x7b\x7dé@m\x7bb\x7d".toList

/-- The blocks that are found in it: the outer one of the two, and the one
behind the wide character. -/
def markedBlocks : List Block :=
  [{ start := 9, stop := 21, header := "@m".toList, groups := [], body := "a\x7b@m\x7b\x7d\x7d".toList,
     full := "@m \x7ba\x7b@m\x7b\x7d\x7d\x7d".toList },
   { start := 28, stop := 33, header := "@m".toList, groups := [], body := "b".toList,
     full := "@m\x7bb\x7d".toList }]

/-- They are where they are said to be, and the rest is left. -/
theorem find_exact_marks :
    find markSearch markedText = .ok markedBlocks
    ∧ (∀ b ∈ markedBlocks, b.start < b.stop
      ∧ ∃ behind ahead m gap, IsBlockAt markSearch markedText b behind ahead m gap)
    ∧ extract markSearch markedText = .ok ("@m;'@m\x7b' x@m\x7b\x7dé".toList, markedBlocks) := by
  have hfind : find markSearch markedText = .ok markedBlocks := by decide +kernel
  obtain ⟨-, hblocks, -, -, -, hextract, -, -⟩ := find_exact markSearch markedText hfind
  have hremoved : removeAll markedText markedBlocks = "@m;'@m\x7b' x@m\x7b\x7dé".toList := by
    decide +kernel
  exact ⟨hfind, hblocks, hremoved ▸ hextract⟩

end Block

end Stylesheet
