import Mathlib.Data.List.Infix
import Stylesheet.Proofs.Derivation
import Stylesheet.Proofs.Statement

/-!
# Balanced stylesheets

The parser finds the end of a block by one search, reads the block by
another run on its own, and has its own count of brackets, with comments
treated apart. `parse_braces` says what this comes to, for texts in which no
brace stands inside round or square brackets: one count of the braces over
the whole text, outside literals. A text is a stylesheet if and only if its
braces are balanced. If a brace closes nothing, the first such brace is to
blame; if none does and some are left open, it is the last brace that opens
an outermost block. Both are given by their place in the whole text, never
by one in a block.

`Outcome` ties the outcome of a run to the braces ahead of the parser.
Balanced pieces in front of them only move the places (`Outcome.behind`), and
whatever the parser goes over in one step is balanced: a piece that is no
brace, or a block.
-/

set_option autoImplicit false

namespace Stylesheet

/-! ### Braces -/

/-- No brace closes nothing, if `depth` braces are open before the pieces:
no part at the front closes more than it opens. -/
def NoExtra (depth : Nat) (ps : List Piece) : Prop :=
  ∀ front, front <+: ps → braces '}' front ≤ braces '{' front + depth

instance (depth : Nat) (ps : List Piece) : Decidable (NoExtra depth ps) :=
  decidable_of_iff (∀ front ∈ ps.inits, braces '}' front ≤ braces '{' front + depth)
    (by simp only [List.mem_inits, NoExtra])

/-- Every brace closes one that was opened before, and all are closed. -/
structure IsBalanced (ps : List Piece) : Prop where
  noExtra : NoExtra 0 ps
  total : braces '{' ps = braces '}' ps

instance (ps : List Piece) : Decidable (IsBalanced ps) :=
  decidable_of_iff (NoExtra 0 ps ∧ braces '{' ps = braces '}' ps)
    ⟨fun h => ⟨h.1, h.2⟩, fun h => ⟨h.noExtra, h.total⟩⟩

/-- The first brace that closes nothing stands behind `front`. -/
structure FirstExtra (front ps : List Piece) : Prop where
  stands : front ++ [.plain '}'] <+: ps
  before : NoExtra 0 front
  extra : braces '{' front < braces '}' (front ++ [.plain '}'])

/-- The last brace that opens an outermost block stands behind `front`. -/
structure LastOutermost (front ps : List Piece) : Prop where
  stands : front ++ [.plain '{'] <+: ps
  outermost : braces '{' front = braces '}' front
  last : ∀ later, later ++ [.plain '{'] <+: ps → braces '{' later = braces '}' later →
    later.length ≤ front.length

/-- There is no brace among no pieces. -/
@[simp] theorem braces_nil (c : Char) : braces c [] = 0 := rfl

/-- One piece is a brace or not. -/
theorem braces_singleton (c : Char) (p : Piece) : braces c [p] = if p = .plain c then 1 else 0 := by
  rw [braces_cons]
  simp [braces]

/-- Without braces none closes nothing. -/
theorem NoExtra.nil (depth : Nat) : NoExtra depth [] := by
  intro front hfront
  rw [List.prefix_nil.mp hfront]
  exact Nat.zero_le _

/-- One piece more. `hp` says how many braces are open behind it: that there is
such a number means that the piece itself closes nothing that is not open. -/
theorem NoExtra.cons {depth depth' : Nat} {p : Piece} {ps : List Piece}
    (hp : braces '}' [p] + depth' = braces '{' [p] + depth) (h : NoExtra depth' ps) :
    NoExtra depth (p :: ps) := by
  intro front hfront
  rcases List.prefix_cons_iff.mp hfront with rfl | ⟨part, rfl, hpart⟩
  · exact Nat.zero_le _
  · have hle := h part hpart
    rw [braces_singleton, braces_singleton] at hp
    rw [braces_cons, braces_cons]
    omega

/-- Behind the first piece, with as many braces open as it leaves. -/
theorem NoExtra.tail {depth depth' : Nat} {p : Piece} {ps : List Piece} (h : NoExtra depth (p :: ps))
    (hp : braces '}' [p] + depth' = braces '{' [p] + depth) : NoExtra depth' ps := by
  intro front hfront
  have hle := h (p :: front) (List.cons_prefix_cons.mpr ⟨rfl, hfront⟩)
  rw [braces_singleton, braces_singleton] at hp
  rw [braces_cons, braces_cons] at hle
  omega

/-- Two rows, of which the second begins with what the first leaves open. -/
theorem NoExtra.append {depth depth' : Nat} {ps qs : List Piece} (hps : NoExtra depth ps)
    (htotal : braces '}' ps + depth' = braces '{' ps + depth) (hqs : NoExtra depth' qs) :
    NoExtra depth (ps ++ qs) := by
  rintro front ⟨back, heq⟩
  rcases List.append_eq_append_iff.mp heq with ⟨rest, rfl, -⟩ | ⟨part, rfl, rfl⟩
  · exact hps front (List.prefix_append front rest)
  · have hle := hqs part (List.prefix_append part back)
    rw [braces_append, braces_append]
    omega

namespace IsBalanced

/-- Without braces everything is balanced. -/
theorem nil : IsBalanced [] := ⟨.nil 0, rfl⟩

/-- Two balanced rows are balanced together. -/
theorem append {ps qs : List Piece} (hps : IsBalanced ps) (hqs : IsBalanced qs) :
    IsBalanced (ps ++ qs) := by
  have htotal := hps.total
  refine ⟨hps.noExtra.append (by omega) hqs.noExtra, ?_⟩
  rw [braces_append, braces_append, htotal, hqs.total]

/-- A piece that is no brace. -/
theorem single {p : Piece} (hopen : p ≠ .plain '{') (hclose : p ≠ .plain '}') : IsBalanced [p] := by
  have htotal : braces '{' [p] = braces '}' [p] := by
    rw [braces_singleton, braces_singleton, if_neg hopen, if_neg hclose]
  exact ⟨.cons (by rw [htotal]) (.nil 0), htotal⟩

/-- A block with its braces. -/
theorem block {inside : List Piece} (h : IsBalanced inside) :
    IsBalanced (.plain '{' :: (inside ++ [.plain '}'])) := by
  have htotal := h.total
  have hinside : NoExtra 1 inside := by
    intro front hfront
    exact Nat.le_succ_of_le (h.noExtra front hfront)
  have hend : NoExtra 1 [.plain '}'] := .cons rfl (.nil 0)
  refine ⟨.cons rfl (hinside.append (by omega) hend), ?_⟩
  simp [braces_cons, braces_append, htotal]

end IsBalanced

/-! ### The brace to blame -/

section

variable {front back ps : List Piece}

/-- The part up to the extra brace closes more than it opens. -/
theorem FirstExtra.not_noExtra (h : FirstExtra front ps) : ¬ NoExtra 0 ps := by
  intro hno
  have hle := hno _ h.stands
  have hextra := h.extra
  rw [braces_append '{', braces_singleton, if_neg (by simp)] at hle
  omega

/-- A brace that closes behind a balanced row is the first one that closes
nothing. -/
theorem firstExtra_of_balanced (heq : ps = front ++ .plain '}' :: back) (hfront : IsBalanced front) :
    FirstExtra front ps := by
  have htotal := hfront.total
  refine ⟨⟨back, by rw [heq]; simp⟩, hfront.noExtra, ?_⟩
  rw [braces_append, braces_singleton, if_pos rfl]
  omega

variable (heq : ps = front ++ .plain '{' :: back) (hfront : IsBalanced front) (hback : NoExtra 0 back)

include heq hfront hback

/-- A block that is left open closes nothing that it should not. -/
theorem noExtra_of_open : NoExtra 0 ps := by
  have htotal := hfront.total
  have hopen : NoExtra 0 (.plain '{' :: back) := .cons rfl fun part hpart =>
    Nat.le_succ_of_le (hback part hpart)
  rw [heq]
  exact hfront.noExtra.append (by omega) hopen

/-- More braces are opened than closed. -/
theorem braces_lt_of_open : braces '}' ps < braces '{' ps := by
  have hle := hback back (List.prefix_refl back)
  have htotal := hfront.total
  rw [heq, braces_append, braces_append, braces_cons, braces_cons, if_neg (by simp), if_pos rfl]
  omega

/-- The brace that is left open is outermost, since the row before it is
balanced, and the last such one, since inside the block one more brace is open. -/
theorem lastOutermost_of_open : LastOutermost front ps := by
  have htotal := hfront.total
  refine ⟨⟨back, by rw [heq]; simp⟩, htotal, ?_⟩
  rintro later ⟨behind, hlater⟩ houtermost
  by_contra hlonger
  -- A later brace stands in what is behind this one, where no block outside of it ends.
  rw [heq, List.append_assoc] at hlater
  rcases List.append_eq_append_iff.mp hlater with ⟨rest, rfl, -⟩ | ⟨part, rfl, hpart⟩
  · simp at hlonger
  · cases part with
    | nil => simp at hlonger
    | cons p part =>
        obtain ⟨rfl, rfl⟩ := List.cons.inj hpart
        have hle := hback part (List.prefix_append part _)
        rw [braces_append, braces_append, braces_cons, braces_cons, if_pos rfl, if_neg (by simp)]
          at houtermost
        omega

end

/-! ### The search for the end of a block -/

/-- A search for a closing brace goes over no brace that closes nothing,
whether or not it comes to an end. -/
theorem noExtra_closePieces? (depth : Nat) (ps : List Piece) :
    NoExtra depth (((Delimiter.brace.closePieces? (depth + 1) ps).map Prod.fst).getD ps) := by
  have hmap : ∀ (p : Piece) (ps : List Piece) (found : Option (List Piece × List Piece)),
      ((found.map fun f => (p :: f.1, f.2)).map Prod.fst).getD (p :: ps)
        = p :: (found.map Prod.fst).getD ps := by
    intro p ps found
    cases found <;> rfl
  induction ps generalizing depth with
  | nil => exact .nil depth
  | cons p ps ih =>
      by_cases hclose : p = .plain '}'
      · subst hclose
        cases depth with
        -- The search ends here, and nothing before this brace is left to speak of.
        | zero =>
            rw [Delimiter.closePieces?, if_pos ⟨rfl, Nat.le_refl 1⟩]
            exact .nil 0
        | succ depth =>
            rw [closePieces?_close, hmap]
            refine .cons ?_ (ih depth)
            simp [braces_singleton, Nat.add_comm]
      · by_cases hopen : p = .plain '{'
        · subst hopen
          rw [closePieces?_open, hmap]
          refine .cons ?_ (ih (depth + 1))
          simp [braces_singleton, Nat.add_comm]
        · rw [closePieces?_other hopen hclose, hmap]
          refine .cons ?_ (ih depth)
          simp [braces_singleton, hopen, hclose]

/-- A search for a closing brace passes over pieces in which no brace closes
nothing, and has as many braces open behind them as they leave open. -/
theorem closePieces?_of_noExtra {depth depth' : Nat} {ps : List Piece} (h : NoExtra depth ps)
    (htotal : braces '}' ps + depth' = braces '{' ps + depth) (more : Nat) (rest : List Piece) :
    Delimiter.brace.closePieces? (depth + more + 1) (ps ++ rest)
      = (Delimiter.brace.closePieces? (depth' + more + 1) rest).map
          fun found => (ps ++ found.1, found.2) := by
  induction ps generalizing depth with
  | nil =>
      obtain rfl : depth' = depth := by simpa using htotal
      simp
  | cons p ps ih =>
      rw [braces_cons, braces_cons] at htotal
      by_cases hclose : p = .plain '}'
      · subst hclose
        -- The brace closes one that is open, since no part at the front closes too much.
        have hopen := h [.plain '}'] (List.cons_prefix_cons.mpr ⟨rfl, List.nil_prefix⟩)
        rw [braces_singleton, braces_singleton, if_pos rfl, if_neg (by simp)] at hopen
        rw [if_pos rfl, if_neg (by simp)] at htotal
        obtain ⟨depth, rfl⟩ : ∃ d, depth = d + 1 := ⟨depth - 1, by omega⟩
        have hrest : NoExtra depth ps := h.tail (by simp [braces_singleton, Nat.add_comm])
        rw [Nat.add_right_comm depth 1 more, List.cons_append, closePieces?_close,
          ih hrest (by omega), Option.map_map]
        rfl
      · by_cases hopen : p = .plain '{'
        · subst hopen
          rw [if_pos rfl, if_neg (by simp)] at htotal
          have hrest : NoExtra (depth + 1) ps := h.tail (by simp [braces_singleton, Nat.add_comm])
          have hstep := ih hrest (by omega)
          rw [Nat.add_right_comm depth 1 more] at hstep
          rw [List.cons_append, closePieces?_open, hstep, Option.map_map]
          rfl
        · rw [if_neg hclose, if_neg hopen] at htotal
          have hrest : NoExtra depth ps := h.tail (by simp [braces_singleton, hopen, hclose])
          rw [List.cons_append, closePieces?_other hopen hclose, ih hrest (by omega), Option.map_map]
          rfl

/-- A search for a closing brace passes over a balanced row. -/
theorem IsBalanced.neutral {ps : List Piece} (h : IsBalanced ps) : BraceNeutral ps := by
  intro depth rest
  have htotal : braces '}' ps + 0 = braces '{' ps + 0 := by rw [h.total]
  have hpast := closePieces?_of_noExtra h.noExtra htotal depth rest
  rwa [Nat.zero_add] at hpast

/-- What a block has inside is balanced. -/
theorem exists_balanced_of_closePieces? {ps inside after : List Piece}
    (h : Delimiter.brace.closePieces? 0 (.plain '{' :: ps) = some (inside, after)) :
    ∃ body, inside = .plain '{' :: body ∧ ps = body ++ .plain '}' :: after ∧ IsBalanced body := by
  rw [closePieces?_open] at h
  obtain ⟨⟨body, after'⟩, hfound, heq⟩ := Option.map_eq_some_iff.mp h
  cases heq
  have hnoExtra := noExtra_closePieces? 0 ps
  rw [hfound] at hnoExtra
  exact ⟨body, rfl, Delimiter.closePieces?_eq hfound, hnoExtra, (braces_of_closePieces? hfound).symm⟩

/-- If the brace is not found, nothing behind the opening one closes too much. -/
theorem noExtra_of_closePieces?_eq_none {ps : List Piece}
    (h : Delimiter.brace.closePieces? 0 (.plain '{' :: ps) = none) : NoExtra 0 ps := by
  rw [closePieces?_open, Option.map_eq_none_iff] at h
  have hnoExtra := noExtra_closePieces? 0 ps
  rwa [h] at hnoExtra

/-! ### Braces outside brackets -/

/-- Brackets are counted from left to right. -/
theorem depthBehind_append (depth : Nat) (ps qs : List Piece) :
    depthBehind depth (ps ++ qs) = depthBehind (depthBehind depth ps) qs := by
  induction ps generalizing depth with
  | nil => rfl
  | cons p ps ih =>
      cases p with
      | plain c => exact ih _
      | string t => exact ih depth
      | comment t => exact ih depth

/-- Where a brace stands, no round or square bracket is open, if `depth` of
them are open before the pieces. -/
def BareBraces (depth : Nat) (ps : List Piece) : Prop :=
  ∀ front c back, ps = front ++ .plain c :: back → c = '{' ∨ c = '}' → depthBehind depth front = 0

namespace BareBraces

variable {depth : Nat} {ps qs : List Piece}

/-- A part at the front. -/
theorem front (h : BareBraces depth (ps ++ qs)) : BareBraces depth ps := by
  intro before c back heq hc
  exact h before c (back ++ qs) (by rw [heq, List.append_assoc, List.cons_append]) hc

/-- A part behind it, with the brackets that are open there. -/
theorem behind (h : BareBraces depth (ps ++ qs)) : BareBraces (depthBehind depth ps) qs := by
  intro before c back heq hc
  rw [← depthBehind_append]
  exact h (ps ++ before) c back (by rw [heq, List.append_assoc]) hc

/-- No bracket is open where a brace stands. -/
theorem depth_eq {c : Char} (h : BareBraces depth (ps ++ .plain c :: qs)) (hc : c = '{' ∨ c = '}') :
    depthBehind depth ps = 0 :=
  h ps c qs rfl hc

/-- The condition on the first piece, and on the others. -/
theorem cons_iff {p : Piece} :
    BareBraces depth (p :: ps)
      ↔ (p = .plain '{' ∨ p = .plain '}' → depth = 0) ∧ BareBraces (depthBehind depth [p]) ps := by
  constructor
  · intro h
    constructor
    · rintro (rfl | rfl)
      · exact h [] '{' ps rfl (.inl rfl)
      · exact h [] '}' ps rfl (.inr rfl)
    · rw [← List.singleton_append] at h
      exact h.behind
  · rintro ⟨hp, hps⟩ front c back heq hc
    cases front with
    | nil =>
        obtain ⟨rfl, rfl⟩ := List.cons.inj heq
        refine hp ?_
        rcases hc with rfl | rfl
        · exact .inl rfl
        · exact .inr rfl
    | cons q front =>
        obtain ⟨rfl, rfl⟩ := List.cons.inj heq
        rw [← List.singleton_append, depthBehind_append]
        exact hps front c back rfl hc

instance decidable (depth : Nat) (ps : List Piece) : Decidable (BareBraces depth ps) :=
  match ps with
  | [] => isTrue (by simp [BareBraces])
  | p :: ps =>
    have := decidable (depthBehind depth [p]) ps
    decidable_of_iff _ cons_iff.symm

end BareBraces

/-! ### Places -/

/-- The ends of lines of two texts. -/
theorem Text.newlines_append (s t : Text) : newlines (s ++ t) = newlines s + newlines t :=
  List.countP_append

/-- Texts that are kept nearest character first have as many ends of lines. -/
theorem Text.newlines_reverse (t : Text) : newlines t.reverse = newlines t :=
  List.countP_reverse

/-! ### Statements -/

/-- The texts that end with a semicolon outside brackets, with the end of a
block or with the end of all. `depth` brackets are open before the pieces,
and `segment` is the text since the last such end, nearest character first;
a comment at the start of a text does not belong to it. A text before a
block is no statement. -/
def statementsFrom (depth : Nat) (segment : Text) : List Piece → List Text
  | [] => [segment.reverse]
  | .comment t :: ps =>
    if Text.blank segment then statementsFrom depth [] ps
    else statementsFrom depth (t.reverse ++ segment) ps
  | .string t :: ps => statementsFrom depth (t.reverse ++ segment) ps
  | .plain c :: ps =>
    if c = '{' then statementsFrom depth [] ps
    else if c = '}' ∨ c = ';' ∧ depth = 0 then segment.reverse :: statementsFrom depth [] ps
    else statementsFrom (Node.bracketDepth depth c) (c :: segment) ps

/-- The statements of a text, at all depths, in order. -/
def statements (t : Text) : List Text := statementsFrom 0 [] (pieces t)

/-- The statements of a block come before those behind it. -/
theorem statementsFrom_append (depth : Nat) (segment : Text) (ps qs : List Piece) :
    statementsFrom depth segment (ps ++ .plain '}' :: qs)
      = statementsFrom depth segment ps ++ statementsFrom (depthBehind depth ps) [] qs := by
  induction ps generalizing depth segment with
  | nil => simp [statementsFrom, depthBehind]
  | cons p ps ih =>
      cases p with
      | string t => exact ih depth _
      | comment t =>
          rw [List.cons_append, statementsFrom, statementsFrom, depthBehind]
          · split
            · exact ih depth _
            · exact ih depth _
          · simp
      | plain c =>
          rw [List.cons_append, statementsFrom, statementsFrom, depthBehind]
          split
          · rename_i hc
            subst hc
            exact ih depth _
          · split
            · rename_i hc
              -- A statement ends here, at a character that is no bracket.
              have hdepth : Node.bracketDepth depth c = depth := by
                rcases hc with rfl | ⟨rfl, -⟩ <;> rfl
              rw [hdepth, ih, List.cons_append]
            · exact ih _ _

namespace Node

/-! ### Outcomes -/

/-- How a run of the parser ends, by the braces ahead of it. -/
inductive Outcome (seen : Text) (ps : List Piece) : Except ParseError (List Node) → Prop where
  | ok (hps : IsBalanced ps) (nodes : List Node) : Outcome seen ps (.ok nodes)
  | extra {front back : List Piece} (hps : ps = front ++ .plain '}' :: back)
      (hfront : IsBalanced front) :
      Outcome seen ps (.error (.scan (.unexpectedClose '}' (Text.size seen + Text.size (textOf front))
        (Text.newlines seen + Text.newlines (textOf front) + 1))))
  | unclosed {front back : List Piece} (hps : ps = front ++ .plain '{' :: back)
      (hfront : IsBalanced front) (hback : NoExtra 0 back) :
      Outcome seen ps (.error (.scan (.unclosed '{' (Text.size seen + Text.size (textOf front))
        (Text.newlines seen + Text.newlines (textOf front) + 1))))

namespace Outcome

variable {seen : Text} {ps : List Piece} {r : Except ParseError (List Node)}

/-- More nodes make no difference. -/
theorem map (h : Outcome seen ps r) (f : List Node → List Node) : Outcome seen ps (r.map f) := by
  cases h with
  | ok hps nodes => exact .ok hps (f nodes)
  | extra hps hfront => exact .extra hps hfront
  | unclosed hps hfront hback => exact .unclosed hps hfront hback

/-- Balanced pieces before the others move the places. -/
theorem behind {before : List Piece} (hbefore : IsBalanced before)
    (h : Outcome ((textOf before).reverse ++ seen) ps r) : Outcome seen (before ++ ps) r := by
  have hsize : ∀ front, Text.size ((textOf before).reverse ++ seen) + Text.size (textOf front)
      = Text.size seen + Text.size (textOf (before ++ front)) := by
    intro front
    rw [Text.size_append, Text.size_reverse, textOf_append, Text.size_append]
    omega
  have hlines : ∀ front,
      Text.newlines ((textOf before).reverse ++ seen) + Text.newlines (textOf front)
        = Text.newlines seen + Text.newlines (textOf (before ++ front)) := by
    intro front
    rw [Text.newlines_append, Text.newlines_reverse, textOf_append, Text.newlines_append]
    omega
  cases h with
  | ok hps nodes => exact .ok (hbefore.append hps) nodes
  | @extra front back hps hfront =>
      rw [hsize, hlines]
      exact .extra (by rw [hps, List.append_assoc]) (hbefore.append hfront)
  | @unclosed front back hps hfront hback =>
      rw [hsize, hlines]
      exact .unclosed (by rw [hps, List.append_assoc]) (hbefore.append hfront) hback

/-- So does a piece that is no brace. -/
theorem cons {p : Piece} (hopen : p ≠ .plain '{') (hclose : p ≠ .plain '}')
    (h : Outcome (p.text.reverse ++ seen) ps r) : Outcome seen (p :: ps) r := by
  refine behind (.single hopen hclose) ?_
  simpa using h

/-- Where all braces fit, something is read. -/
theorem exists_of_isBalanced (h : Outcome seen ps r) (hps : IsBalanced ps) :
    ∃ nodes, r = .ok nodes := by
  cases h with
  | ok _ nodes => exact ⟨nodes, rfl⟩
  | extra heq hfront => exact absurd hps.noExtra (firstExtra_of_balanced heq hfront).not_noExtra
  | unclosed heq hfront hback =>
      exact absurd hps.total (Nat.ne_of_gt (braces_lt_of_open heq hfront hback))

end Outcome

/-! ### Runs -/

/-- At an opening brace: the search for the brace that closes it goes on to
the end, or there is a block, which is balanced. -/
theorem outcome_open {ps : List Piece} {seen segment : Text} (hbare : BareBraces 0 ps)
    (hstatements : ∀ s ∈ statementsFrom 0 [] ps, ∃ node, ofSegment s = .ok node)
    (houtcome : ∀ {qs : List Piece} {seen : Text}, qs.length < ps.length → BareBraces 0 qs →
      (∀ s ∈ statementsFrom 0 [] qs, ∃ node, ofSegment s = .ok node) →
      Outcome seen qs (parsePieces seen 0 [] qs)) :
    Outcome seen (.plain '{' :: ps) (parsePieces seen 0 segment (.plain '{' :: ps)) := by
  cases hclose : Delimiter.brace.closePieces? 0 (.plain '{' :: ps) with
  | none =>
      rw [parsePieces_unclosed hclose]
      exact .unclosed (List.nil_append _).symm .nil (noExtra_of_closePieces?_eq_none hclose)
  | some found =>
      obtain ⟨inside, after⟩ := found
      obtain ⟨body, rfl, rfl, hbody⟩ := exists_balanced_of_closePieces? hclose
      have hdepth : depthBehind 0 body = 0 := hbare.depth_eq (.inr rfl)
      rw [statementsFrom_append, hdepth, List.forall_mem_append] at hstatements
      have hafter : BareBraces 0 after := by
        rw [List.append_cons] at hbare
        have hbehind := hbare.behind
        rwa [depthBehind_append, hdepth] at hbehind
      -- The block is read by a run of its own. It is balanced, so this run cannot fail, and no
      -- place inside the block gets into an error.
      have hchildren : Outcome [] body (parsePieces [] 0 [] body) :=
        houtcome (by simp) hbare.front hstatements.1
      obtain ⟨children, hread⟩ := hchildren.exists_of_isBalanced hbody
      rw [parsePieces_close hclose hread]
      have hshorter : after.length < (body ++ .plain '}' :: after).length := by
        rw [List.length_append, List.length_cons]
        omega
      have hrest : Outcome ((textOf (.plain '{' :: (body ++ [.plain '}']))).reverse ++ seen) after
          (parsePieces _ 0 [] after) := houtcome hshorter hafter hstatements.2
      simpa [Piece.text] using (hrest.map _).behind hbody.block

/-- The run of the parser is settled by the braces ahead, if there is
something to make of every statement. -/
theorem outcome_parsePieces {ps : List Piece} {seen segment : Text} {depth : Nat}
    (hbare : BareBraces depth ps)
    (hstatements : ∀ s ∈ statementsFrom depth segment ps, ∃ node, ofSegment s = .ok node) :
    Outcome seen ps (parsePieces seen depth segment ps) := by
  -- A block is read apart from what follows it, so the induction is on the number of pieces.
  induction hn : ps.length using Nat.strongRecOn generalizing ps seen segment depth with
  | ind n ih =>
      cases ps with
      | nil =>
          obtain ⟨node, hnode⟩ := hstatements segment.reverse (by simp [statementsFrom])
          rw [parsePieces, hnode]
          exact .ok .nil _
      | cons p rest =>
          have hlength : rest.length < n := by
            rw [← hn]
            exact Nat.lt_succ_self _
          obtain ⟨hbrace, hrest⟩ := BareBraces.cons_iff.mp hbare
          cases p with
          | string t =>
              rw [parsePieces_string]
              exact .cons (by simp) (by simp) (ih _ hlength hrest hstatements rfl)
          | comment t =>
              rw [statementsFrom] at hstatements
              cases hblank : Text.blank segment with
              | true =>
                  rw [if_pos hblank] at hstatements
                  rw [parsePieces_comment_node hblank]
                  exact .cons (by simp) (by simp) ((ih _ hlength hrest hstatements rfl).map _)
              | false =>
                  rw [if_neg (by simp [hblank])] at hstatements
                  rw [parsePieces_comment hblank]
                  exact .cons (by simp) (by simp) (ih _ hlength hrest hstatements rfl)
          | plain c =>
              rw [statementsFrom] at hstatements
              by_cases hopen : c = '{'
              · subst hopen
                obtain rfl : depth = 0 := hbrace (.inl rfl)
                rw [if_pos rfl] at hstatements
                exact outcome_open hrest hstatements fun hshorter hbare hstatements =>
                  ih _ (hshorter.trans hlength) hbare hstatements rfl
              · rw [if_neg hopen] at hstatements
                by_cases hclose : c = '}'
                · subst hclose
                  rw [parsePieces, if_neg (by simp), if_neg (by simp), if_pos rfl]
                  exact .extra (List.nil_append _).symm .nil
                · by_cases hend : c = ';' ∧ depth = 0
                  · obtain ⟨rfl, rfl⟩ := hend
                    rw [if_pos (.inr ⟨rfl, rfl⟩), List.forall_mem_cons] at hstatements
                    obtain ⟨⟨node, hnode⟩, hstatements⟩ := hstatements
                    rw [parsePieces_semicolon hnode]
                    exact .cons (by simp) (by simp) ((ih _ hlength hrest hstatements rfl).map _)
                  · rw [if_neg (by simp [hclose, hend])] at hstatements
                    have hends : endsSegment false depth c = false := by
                      simpa [endsSegment, hopen, hclose] using hend
                    rw [parsePieces_plain hends]
                    exact .cons (by simpa using hopen) (by simpa using hclose)
                      (ih _ hlength hrest hstatements rfl)

/-! ### Stylesheets -/

/-- There is something to make of every statement but an import. -/
theorem exists_ofSegment_of_trim {s : Text} (h : Text.beginsImport (Text.trim s) = false) :
    ∃ node, ofSegment s = .ok node := by
  by_cases hne : Text.trim s = []
  · exact ⟨none, by rw [ofSegment, hne]⟩
  · exact ⟨_, ofSegment_eq rfl hne h⟩

/-- A text without imports, and with no brace inside other brackets, is a
stylesheet if and only if its braces are balanced. If not, the first brace
that closes nothing is to blame, or else the last one that opens an
outermost block. -/
theorem parse_braces {t : Text} (hbare : BareBraces 0 (pieces t))
    (himport : ∀ s ∈ statements t, Text.beginsImport (Text.trim s) = false) :
    ((∃ nodes, parse t = .ok nodes) ↔ IsBalanced (pieces t))
      ∧ (¬ NoExtra 0 (pieces t) → ∃ front, FirstExtra front (pieces t)
        ∧ parse t = .error (.scan (.unexpectedClose '}' (Text.size (textOf front))
            (Text.newlines (textOf front) + 1))))
      ∧ (NoExtra 0 (pieces t) → ¬ IsBalanced (pieces t) → ∃ front, LastOutermost front (pieces t)
        ∧ parse t = .error (.scan (.unclosed '{' (Text.size (textOf front))
            (Text.newlines (textOf front) + 1)))) := by
  -- Everything follows from how the run ends; the three outcomes exclude each other.
  have houtcome : Outcome [] (pieces t) (parse t) :=
    outcome_parsePieces hbare fun s hs => exists_ofSegment_of_trim (himport s hs)
  have hok : IsBalanced (pieces t) → ∃ nodes, parse t = .ok nodes := houtcome.exists_of_isBalanced
  -- The result is generalized so that the outcome can be taken apart.
  generalize parse t = r at houtcome hok ⊢
  cases houtcome with
  | ok hps nodes =>
      exact ⟨⟨fun _ => hps, fun _ => ⟨nodes, rfl⟩⟩, fun h => absurd hps.noExtra h,
        fun _ h => absurd hps h⟩
  | @extra front back hps hfront =>
      have hfirst := firstExtra_of_balanced hps hfront
      refine ⟨⟨by simp, hok⟩, fun _ => ⟨front, hfirst, ?_⟩, fun h => absurd h hfirst.not_noExtra⟩
      simp [Text.newlines]
  | @unclosed front back hps hfront hback =>
      refine ⟨⟨by simp, hok⟩, fun h => absurd (noExtra_of_open hps hfront hback) h, fun _ _ =>
        ⟨front, lastOutermost_of_open hps hfront hback, ?_⟩⟩
      simp [Text.newlines]

/-- Braces in literals, brackets that close nothing, blocks in a block, and
an outermost block without an end. -/
def ajar : Text :=
  "/* \x7b */ a \x7b b: url(x[1]);\n  é \x7b c: \"\x7d\" \x7d );\n\x7d\n@media d".toList
    ++ " \x7b\n e \x7b f: g \x7d h ".toList

/-- The text is not closed. With one brace more it is read, and with another
two the first of them closes nothing. -/
theorem parse_braces_ajar :
    (∀ t ∈ [ajar, ajar ++ ['}'], ajar ++ ['}', '}', '{']], BareBraces 0 (pieces t)
        ∧ ∀ s ∈ statements t, Text.beginsImport (Text.trim s) = false)
      ∧ (∃ nodes, parse (ajar ++ ['}']) = .ok nodes)
      ∧ (∃ front, FirstExtra front (pieces (ajar ++ ['}', '}', '{']))
        ∧ parse (ajar ++ ['}', '}', '{']) = .error (.scan (.unexpectedClose '}'
            (Text.size (textOf front)) (Text.newlines (textOf front) + 1))))
      ∧ ∃ front, LastOutermost front (pieces ajar)
        ∧ parse ajar = .error (.scan (.unclosed '{' (Text.size (textOf front))
            (Text.newlines (textOf front) + 1))) := by
  have hbare : ∀ t ∈ [ajar, ajar ++ ['}'], ajar ++ ['}', '}', '{']], BareBraces 0 (pieces t)
      ∧ ∀ s ∈ statements t, Text.beginsImport (Text.trim s) = false := by decide +kernel
  have hajar := hbare _ (.head _)
  have hended := hbare _ (.tail _ (.head _))
  have hextra := hbare _ (.tail _ (.tail _ (.head _)))
  exact ⟨hbare, (parse_braces hended.1 hended.2).1.mpr (by decide +kernel),
    (parse_braces hextra.1 hextra.2).2.1 (by decide +kernel),
    (parse_braces hajar.1 hajar.2).2.2 (by decide +kernel) (by decide +kernel)⟩

end Node

end Stylesheet
