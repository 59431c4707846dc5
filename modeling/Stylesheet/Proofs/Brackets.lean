import Stylesheet.Node.Parser

/-!
# Brackets and braces in pieces

The parser counts round and square brackets together, outside literals,
and never below zero. In a text whose brackets are balanced the count
comes back to where it was; `openBehind` is that count, and it fails where
the parser would have stopped at zero.

The search for a closing delimiter keeps a count of its own, which is what
the numbers of the two delimiters say as long as it goes on
(`Delimiter.depth_count_cons`). For braces, pieces are neutral when the search
passes over them (`BraceNeutral`).

Last comes the count as the parser keeps it, at zero if it has to
(`passed`). It fails at a piece that ends the segment that the parser is
in.
-/

set_option autoImplicit false

namespace Stylesheet

/-! ### Round and square brackets -/

/-- How many brackets are open behind a piece, if `depth` are open before
it. There is no answer when the piece closes nothing. -/
def Piece.openBehind (depth : Nat) : Piece → Option Nat
  | .plain c =>
    if (c = ')' ∨ c = ']') ∧ depth = 0 then none else some (Node.bracketDepth depth c)
  | _ => some depth

/-- How many brackets are open behind some pieces. -/
def openBehind (depth : Nat) (ps : List Piece) : Option Nat := ps.foldlM Piece.openBehind depth

/-- Whether a character stands outside brackets and literals, `depth`
brackets being open before the pieces. -/
def hasTop (target : Char) : Nat → List Piece → Bool
  | _, [] => false
  | depth, .plain c :: ps =>
    (c == target && depth == 0) || hasTop target (Node.bracketDepth depth c) ps
  | depth, _ :: ps => hasTop target depth ps

/-- Brackets are counted from left to right. -/
theorem openBehind_append (depth : Nat) (ps qs : List Piece) :
    openBehind depth (ps ++ qs) = (openBehind depth ps).bind fun d => openBehind d qs :=
  List.foldlM_append

/-- One piece and then the others. -/
theorem openBehind_cons {depth depth' : Nat} {p : Piece} {ps : List Piece} :
    openBehind depth (p :: ps) = some depth'
      ↔ ∃ d, p.openBehind depth = some d ∧ openBehind d ps = some depth' := by
  rw [openBehind, List.foldlM_cons]
  exact Option.bind_eq_some_iff

/-- Where there is an answer, it is the one of the parser, which never counts
below none. -/
theorem Piece.eq_of_openBehind_plain {depth d : Nat} {c : Char}
    (h : (Piece.plain c).openBehind depth = some d) : d = Node.bracketDepth depth c := by
  rw [Piece.openBehind] at h
  split at h
  · cases h
  · exact (Option.some.inj h).symm

/-- A piece does the same inside further brackets. -/
theorem Piece.openBehind_add {depth d : Nat} {p : Piece} (h : p.openBehind depth = some d)
    (more : Nat) : p.openBehind (depth + more) = some (d + more) := by
  cases p with
  | plain c =>
      simp only [Piece.openBehind, Node.bracketDepth] at h ⊢
      grind
  | string t => simp_all [Piece.openBehind]
  | comment t => simp_all [Piece.openBehind]

/-- Pieces do the same inside further brackets. -/
theorem openBehind_add {depth depth' : Nat} {ps : List Piece}
    (h : openBehind depth ps = some depth') (more : Nat) :
    openBehind (depth + more) ps = some (depth' + more) := by
  induction ps generalizing depth with
  | nil =>
      cases h
      rfl
  | cons p ps ih =>
      obtain ⟨d, hp, hps⟩ := openBehind_cons.mp h
      exact openBehind_cons.mpr ⟨d + more, Piece.openBehind_add hp more, ih hps⟩

/-- How many brackets are open behind some pieces, never less than
none. -/
def depthBehind (depth : Nat) : List Piece → Nat
  | [] => depth
  | .plain c :: ps => depthBehind (Node.bracketDepth depth c) ps
  | _ :: ps => depthBehind depth ps

/-- The two counts agree where no bracket closes nothing. -/
theorem depthBehind_of_openBehind {depth depth' : Nat} {ps : List Piece}
    (h : openBehind depth ps = some depth') : depthBehind depth ps = depth' := by
  induction ps generalizing depth with
  | nil => exact Option.some.inj h
  | cons p ps ih =>
      obtain ⟨d, hp, hps⟩ := openBehind_cons.mp h
      cases p with
      | plain c =>
          obtain rfl := Piece.eq_of_openBehind_plain hp
          exact ih hps
      | string t =>
          cases hp
          exact ih hps
      | comment t =>
          cases hp
          exact ih hps

/-- One step of the search for a character outside brackets. -/
theorem splitTopOncePieces_plain {target c : Char} {depth : Nat}
    (h : (c == target && depth == 0) = false) (ps : List Piece) :
    splitTopOncePieces target depth (.plain c :: ps)
      = (splitTopOncePieces target (Node.bracketDepth depth c) ps).map
          fun found => (c :: found.1, found.2) := by
  have hneg : ¬ (c = target ∧ depth = 0) := by simpa using h
  have hdepth : (if c = '(' ∨ c = '[' then depth + 1
      else if c = ')' ∨ c = ']' then depth - 1 else depth) = Node.bracketDepth depth c := rfl
  rw [splitTopOncePieces, if_neg hneg]
  simp only [hdepth]
  cases splitTopOncePieces target (Node.bracketDepth depth c) ps <;> rfl

/-- A literal is passed over as a whole. -/
theorem splitTopOncePieces_literal {target : Char} {depth : Nat} {p : Piece}
    (h : ∀ c, p ≠ .plain c) (ps : List Piece) :
    splitTopOncePieces target depth (p :: ps)
      = (splitTopOncePieces target depth ps).map fun found => (p.text ++ found.1, found.2) := by
  cases p with
  | plain c => exact absurd rfl (h c)
  | string t =>
      simp only [splitTopOncePieces]
      cases splitTopOncePieces target depth ps <;> rfl
  | comment t =>
      simp only [splitTopOncePieces]
      cases splitTopOncePieces target depth ps <;> rfl

/-- The search passes over pieces without such a character. -/
theorem splitTopOncePieces_append {target : Char} {depth : Nat} {ps : List Piece}
    (htop : hasTop target depth ps = false) (qs : List Piece) :
    splitTopOncePieces target depth (ps ++ qs)
      = (splitTopOncePieces target (depthBehind depth ps) qs).map
          fun found => (textOf ps ++ found.1, found.2) := by
  induction ps generalizing depth with
  | nil => simp [depthBehind]
  | cons p ps ih =>
      cases p with
      | plain c =>
          rw [hasTop, Bool.or_eq_false_iff] at htop
          rw [List.cons_append, splitTopOncePieces_plain htop.1, ih htop.2, Option.map_map]
          rfl
      | string t =>
          rw [List.cons_append, splitTopOncePieces_literal (by simp), ih htop, Option.map_map]
          simp [Function.comp_def, depthBehind]
      | comment t =>
          rw [List.cons_append, splitTopOncePieces_literal (by simp), ih htop, Option.map_map]
          simp [Function.comp_def, depthBehind]

/-- A text with no such character is not divided. -/
theorem splitTopOnce_eq_none {target : Char} {t : Text}
    (htop : hasTop target 0 (pieces t) = false) : splitTopOnce target t = none := by
  have h := splitTopOncePieces_append htop []
  rwa [List.append_nil] at h

/-- A text is divided at a character behind which no bracket is open. -/
theorem splitTopOnce_eq_some {target : Char} {before : List Piece} {t behind : Text}
    (ht : pieces t = before ++ .plain target :: pieces behind)
    (htop : hasTop target 0 before = false) (hdepth : depthBehind 0 before = 0) :
    splitTopOnce target t = some (textOf before, behind) := by
  rw [splitTopOnce, ht, splitTopOncePieces_append htop, hdepth, splitTopOncePieces,
    if_pos ⟨rfl, rfl⟩]
  simp [text_pieces]

/-! ### Delimiters and braces -/

/-- One step of the search for a closing delimiter that does not end
it. -/
theorem closePieces?_cons {d : Delimiter} {depth : Nat} {p : Piece}
    (h : ¬ (p = .plain d.closing ∧ depth ≤ 1)) (ps : List Piece) :
    d.closePieces? depth (p :: ps)
      = (d.closePieces? (if p = .plain d.opening then depth + 1
          else if p = .plain d.closing then depth - 1 else depth) ps).map
          fun found => (p :: found.1, found.2) := by
  rw [Delimiter.closePieces?, if_neg h]
  dsimp only
  split
  · rename_i hnone
    rw [hnone]
    rfl
  · rename_i hsome
    rw [hsome]
    rfl

namespace Delimiter

variable {d : Delimiter} {depth : Nat} {p : Piece}

/-- The two delimiters of a kind are different. -/
theorem opening_ne_closing (d : Delimiter) : d.opening ≠ d.closing := by
  cases d <;> decide

/-- Each of them has one byte. -/
theorem size_opening (d : Delimiter) : d.opening.utf8Size = 1 := by
  cases d <;> rfl

/-- And so has the closing one. -/
theorem size_closing (d : Delimiter) : d.closing.utf8Size = 1 := by
  cases d <;> rfl

/-- How many delimiters are open behind a piece, besides one that is open
all the time. -/
def depthPast (d : Delimiter) (depth : Nat) (p : Piece) : Nat :=
  if p = .plain d.opening then depth + 1
  else if p = .plain d.closing then depth - 1
  else depth

/-- The search goes on behind every piece but the one that closes the last
delimiter. -/
theorem closePieces?_past (h : ¬ (p = .plain d.closing ∧ depth = 0)) (ps : List Piece) :
    d.closePieces? (depth + 1) (p :: ps)
      = (d.closePieces? (d.depthPast depth p + 1) ps).map fun found => (p :: found.1, found.2) := by
  have hdepth : (if p = .plain d.opening then depth + 1 + 1
      else if p = .plain d.closing then depth + 1 - 1 else depth + 1) = d.depthPast depth p + 1 := by
    unfold depthPast
    split
    · rfl
    · split
      · rename_i hclose
        have hpos : depth ≠ 0 := fun h0 => h ⟨hclose, h0⟩
        omega
      · rfl
  rw [closePieces?_cons (fun hend => h ⟨hend.1, by omega⟩), hdepth]

/-- As long as the search goes on, the counter is what the counts of the
pieces say. -/
theorem depth_count_cons (h : ¬ (p = .plain d.closing ∧ depth = 0)) (ps : List Piece) :
    depth + (p :: ps).count (.plain d.opening) = (p :: ps).count (.plain d.closing)
      ↔ d.depthPast depth p + ps.count (.plain d.opening) = ps.count (.plain d.closing) := by
  have hne := d.opening_ne_closing
  rw [List.count_cons, List.count_cons, depthPast]
  by_cases hopen : p = .plain d.opening
  · subst hopen
    simp only [beq_iff_eq, Piece.plain.injEq, hne, if_true, if_false]
    omega
  · by_cases hclose : p = .plain d.closing
    · have hpos : depth ≠ 0 := fun h0 => h ⟨hclose, h0⟩
      subst hclose
      simp only [beq_iff_eq, Piece.plain.injEq, hne.symm, if_true, if_false]
      omega
    · simp [hopen, hclose]

/-- Where the search ends, as many delimiters were closed as were open. -/
theorem count_of_closePieces? {ps inside rest : List Piece}
    (h : d.closePieces? (depth + 1) ps = some (inside, rest)) :
    depth + inside.count (.plain d.opening) = inside.count (.plain d.closing) := by
  induction ps generalizing depth inside with
  | nil => cases h
  | cons p ps ih =>
      by_cases hend : p = .plain d.closing ∧ depth = 0
      · obtain ⟨rfl, rfl⟩ := hend
        rw [closePieces?, if_pos ⟨rfl, Nat.le_refl 1⟩] at h
        cases h
        rfl
      · rw [closePieces?_past hend] at h
        obtain ⟨⟨inside', rest'⟩, hfound, heq⟩ := Option.map_eq_some_iff.mp h
        cases heq
        exact (depth_count_cons hend inside').mpr (ih hfound)

end Delimiter

/-- The steps of the search for a closing brace: over a piece that is no
brace, into a block, and out of one. -/
theorem closePieces?_other {p : Piece} (hopen : p ≠ .plain '{') (hclose : p ≠ .plain '}')
    (depth : Nat) (ps : List Piece) :
    Delimiter.brace.closePieces? depth (p :: ps)
      = (Delimiter.brace.closePieces? depth ps).map fun found => (p :: found.1, found.2) := by
  rw [closePieces?_cons fun h => hclose h.1]
  simp [Delimiter.opening, Delimiter.closing, hopen, hclose]

/-- Into a block. -/
theorem closePieces?_open (depth : Nat) (ps : List Piece) :
    Delimiter.brace.closePieces? depth (.plain '{' :: ps)
      = (Delimiter.brace.closePieces? (depth + 1) ps).map
          fun found => (.plain '{' :: found.1, found.2) := by
  rw [closePieces?_cons (by simp [Delimiter.closing])]
  rfl

/-- Out of a block that is not the one whose end is searched. -/
theorem closePieces?_close (depth : Nat) (ps : List Piece) :
    Delimiter.brace.closePieces? (depth + 2) (.plain '}' :: ps)
      = (Delimiter.brace.closePieces? (depth + 1) ps).map
          fun found => (.plain '}' :: found.1, found.2) := by
  rw [closePieces?_cons (by simp)]
  rfl

/-- A search for a closing brace, at least one brace being open, passes
over the pieces. -/
def BraceNeutral (ps : List Piece) : Prop :=
  ∀ (depth : Nat) (rest : List Piece), Delimiter.brace.closePieces? (depth + 1) (ps ++ rest)
    = (Delimiter.brace.closePieces? (depth + 1) rest).map fun found => (ps ++ found.1, found.2)

namespace BraceNeutral

/-- There is nothing to pass over. -/
theorem nil : BraceNeutral [] := by
  intro depth rest
  simp

/-- One after the other. -/
theorem append {ps qs : List Piece} (hp : BraceNeutral ps) (hq : BraceNeutral qs) :
    BraceNeutral (ps ++ qs) := by
  intro depth rest
  rw [List.append_assoc, hp, hq, Option.map_map]
  simp [Function.comp_def]

/-- Pieces that are no braces. -/
theorem of_forall {ps : List Piece}
    (h : ∀ p ∈ ps, p ≠ .plain '{' ∧ p ≠ .plain '}') : BraceNeutral ps := by
  induction ps with
  | nil => exact nil
  | cons p ps ih =>
      intro depth rest
      obtain ⟨hopen, hclose⟩ := h p List.mem_cons_self
      rw [List.cons_append, closePieces?_other hopen hclose,
        ih (fun q hq => h q (List.mem_cons_of_mem _ hq)), Option.map_map]
      rfl

/-- A block with its braces. -/
theorem block {ps : List Piece} (h : BraceNeutral ps) :
    BraceNeutral (.plain '{' :: (ps ++ [.plain '}'])) := by
  intro depth rest
  -- In through the opening brace, over the inside one level deeper, and out again.
  rw [List.cons_append, List.append_assoc, List.singleton_append, closePieces?_open, h,
    closePieces?_close, Option.map_map, Option.map_map]
  simp [Function.comp_def]

end BraceNeutral

/-- The brace that closes a block is found behind what is inside it. -/
theorem closePieces?_block {ps : List Piece} (h : BraceNeutral ps) (rest : List Piece) :
    Delimiter.brace.closePieces? 0 (.plain '{' :: (ps ++ .plain '}' :: rest))
      = some (.plain '{' :: ps, rest) := by
  have hend : Delimiter.brace.closePieces? 1 (.plain '}' :: rest) = some ([], rest) := by
    rw [Delimiter.closePieces?, if_pos ⟨rfl, Nat.le_refl 1⟩]
  rw [closePieces?_open, h 0, hend]
  simp

/-! ### Segments -/

/-- Whether a character outside literals ends the segment that it comes to.
In a block no opening brace belongs to a segment; at the top one may stand
inside brackets. -/
def endsSegment (nested : Bool) (depth : Nat) (c : Char) : Bool :=
  c == '}' || c == '{' && (nested || depth == 0) || c == ';' && depth == 0

/-- How many brackets are open behind a piece of a segment. There is no
answer when the piece ends the segment. -/
def Piece.passed (nested : Bool) (depth : Nat) : Piece → Option Nat
  | .plain c => if endsSegment nested depth c then none else some (Node.bracketDepth depth c)
  | _ => some depth

/-- What the answer says about a character. -/
theorem Piece.passed_plain {nested : Bool} {depth d : Nat} {c : Char} :
    (Piece.plain c).passed nested depth = some d
      ↔ endsSegment nested depth c = false ∧ Node.bracketDepth depth c = d := by
  rw [Piece.passed]
  cases endsSegment nested depth c <;> simp

/-- How many brackets are open behind some pieces of a segment. -/
def passed (nested : Bool) (depth : Nat) (ps : List Piece) : Option Nat :=
  ps.foldlM (Piece.passed nested) depth

/-- A segment goes from left to right. -/
theorem passed_append (nested : Bool) (depth : Nat) (ps qs : List Piece) :
    passed nested depth (ps ++ qs) = (passed nested depth ps).bind fun d => passed nested d qs :=
  List.foldlM_append

/-- One piece and then the others. -/
theorem passed_cons {nested : Bool} {depth depth' : Nat} {p : Piece} {ps : List Piece} :
    passed nested depth (p :: ps) = some depth'
      ↔ ∃ d, p.passed nested depth = some d ∧ passed nested d ps = some depth' := by
  rw [passed, List.foldlM_cons]
  exact Option.bind_eq_some_iff

/-- The count of brackets is the one of the parser. -/
theorem depthBehind_of_passed {nested : Bool} {depth depth' : Nat} {ps : List Piece}
    (h : passed nested depth ps = some depth') : depthBehind depth ps = depth' := by
  induction ps generalizing depth with
  | nil => exact Option.some.inj h
  | cons p ps ih =>
      obtain ⟨d, hp, hps⟩ := passed_cons.mp h
      cases p with
      | plain c =>
          obtain ⟨-, rfl⟩ := Piece.passed_plain.mp hp
          exact ih hps
      | string t =>
          cases hp
          exact ih hps
      | comment t =>
          cases hp
          exact ih hps

/-- Pieces whose brackets are balanced, and which have no braces and no
semicolon, are those of a segment. -/
theorem passed_of_openBehind (nested : Bool) {ps : List Piece}
    (hinert : ∀ p ∈ ps, p ≠ .plain '{' ∧ p ≠ .plain '}' ∧ p ≠ .plain ';') {depth depth' : Nat}
    (hopen : openBehind depth ps = some depth') : passed nested depth ps = some depth' := by
  induction ps generalizing depth with
  | nil => exact hopen
  | cons p ps ih =>
      rw [List.forall_mem_cons] at hinert
      obtain ⟨d, hp, hps⟩ := openBehind_cons.mp hopen
      refine passed_cons.mpr ⟨d, ?_, ih hinert.2 hps⟩
      cases p with
      | plain c =>
          obtain rfl := Piece.eq_of_openBehind_plain hp
          have hne := hinert.1
          simp only [ne_eq, Piece.plain.injEq] at hne
          exact Piece.passed_plain.mpr ⟨by simp [endsSegment, hne], rfl⟩
      | string t => exact hp
      | comment t => exact hp

/-- What belongs to a segment inside a block belongs to one at the top. -/
theorem passed_mono {nested nested' : Bool} (hle : nested' = true → nested = true)
    {depth depth' : Nat} {ps : List Piece} (h : passed nested depth ps = some depth') :
    passed nested' depth ps = some depth' := by
  induction ps generalizing depth with
  | nil => exact h
  | cons p ps ih =>
      obtain ⟨d, hp, hps⟩ := passed_cons.mp h
      refine passed_cons.mpr ⟨d, ?_, ih hps⟩
      cases p with
      | plain c =>
          obtain ⟨hends, hdepth⟩ := Piece.passed_plain.mp hp
          refine Piece.passed_plain.mpr ⟨?_, hdepth⟩
          cases nested' with
          | true => rwa [hle rfl] at hends
          | false =>
              unfold endsSegment at hends ⊢
              cases nested <;> simp_all
      | string t => exact hp
      | comment t => exact hp

/-- Inside a block a segment has no braces. -/
theorem BraceNeutral.of_passed {depth depth' : Nat} {ps : List Piece}
    (h : passed true depth ps = some depth') : BraceNeutral ps := by
  refine .of_forall ?_
  induction ps generalizing depth with
  | nil => simp
  | cons p ps ih =>
      obtain ⟨d, hp, hps⟩ := passed_cons.mp h
      rw [List.forall_mem_cons]
      refine ⟨⟨?_, ?_⟩, ih hps⟩
      · rintro rfl
        cases hp
      · rintro rfl
        cases hp

end Stylesheet
