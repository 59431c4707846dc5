import Stylesheet.Proofs.Derivation
import Stylesheet.Proofs.Statement

/-!
# Stylesheets one after the other

Stylesheets that are put one after the other need not be read as they were
read alone. A comment or string that is open at the end of the first takes in
the second, and so does a statement that has no semicolon, or a bracket that
is open in one.

A `Walk` goes over the pieces of a text and keeps no more than the braces and
brackets that are open and whether a segment has begun. A text is `AtRest` if
this leads back to where it started and no literal is open. `parse_append_iff`
says that this is what matters: a stylesheet can stand before every other one
just if it is at rest.

Both directions come from `crosses_of_parsePieces`. Where the parser gets over
a text, it makes some nodes for good and is in a state that does not depend on
what follows, and the walk shows as much of that state as is needed.
-/

set_option autoImplicit false

namespace Stylesheet

/-! ### Literals that are open -/

namespace Literal

/-- A string that is open at the end takes in a letter. -/
theorem takeString_open {q : Char} (hq : isQuote q = true) {t : Text}
    (hrest : (takeString q t).2 = []) (hopen : endsString q (takeString q t).1 = false) :
    (takeString q (t ++ ['x'])).2 = [] := by
  -- The letter is not a quote, so it does not end the string either.
  have hx : 'x' ≠ q := (ne_of_isQuote hq (by decide)).symm
  fun_induction takeString q t with
  | case1 => simp [takeString]
  | case2 c hc => cases hrest
  | case3 c hc =>
      have hcq : (c == q) = false := hopen
      by_cases hb : c = '\\' <;> simp [takeString, hb, hc, hcq]
  | case4 c d r hb inside rest heq ih =>
      rw [heq] at ih
      have hinside : endsString q inside = false := by simpa [endsString, hb] using hopen
      simp [takeString, hb, ih hrest hinside]
  | case5 c d r hb hn => cases hrest
  | case6 c d r hb hn hcq => cases hrest
  | case7 c d r hb hn hcq inside rest heq ih =>
      rw [heq] at ih
      have hinside : endsString q inside = false := by
        cases inside with
        | nil => rfl
        | cons e inside => simpa [endsString, hb] using hopen
      have htail := ih hrest hinside
      rw [List.cons_append] at htail
      simp [takeString, hb, hn, hcq, htail]

/-- So does a comment. -/
theorem takeComment_open {t : Text} (hrest : (takeComment t).2 = [])
    (hopen : endsComment (takeComment t).1 = false) : (takeComment (t ++ ['x'])).2 = [] := by
  fun_induction takeComment t with
  | case1 => rfl
  | case2 c => simp [takeComment]
  | case3 c d r hcd =>
      have hends : endsComment [c, d] = true := by
        simp only [Bool.and_eq_true, beq_iff_eq] at hcd
        rw [hcd.1, hcd.2]
        rfl
      rw [hends] at hopen
      cases hopen
  | case4 c d r hcd inside rest heq ih =>
      have hhead := head?_takeComment d r
      rw [heq] at ih hhead
      rw [endsComment_cons hcd hhead] at hopen
      have htail := ih hrest hopen
      rw [List.cons_append] at htail
      simp [takeComment, hcd, htail]

/-- A literal that is open at the end of a text takes in a letter. -/
theorem exists_take?_open {t : Text} {p : Piece} (h : take? t = some (p, []))
    (hopen : p.closed = false) : ∃ p', take? (t ++ ['x']) = some (p', []) := by
  rcases take?_cases h with ⟨q, r, hq, rfl, rfl, hrest⟩ | ⟨r, rfl, rfl, hrest⟩
  · refine ⟨.string (q :: (takeString q (r ++ ['x'])).1), ?_⟩
    rw [List.cons_append, take?_quote hq, takeString_open hq hrest.symm hopen]
  · refine ⟨.comment ('/' :: '*' :: (takeComment (r ++ ['x'])).1), ?_⟩
    rw [List.cons_append, List.cons_append, take?_comment, takeComment_open hrest.symm hopen]

end Literal

/-- A string or comment, which is not blank. -/
def Piece.IsLiteral (p : Piece) : Prop := Text.blank p.text = false ∧ ∀ c, p ≠ .plain c

/-- What is taken as a literal is one: it begins with a quote or a slash. -/
theorem Literal.isLiteral_of_take? {t rest : Text} {p : Piece} (h : take? t = some (p, rest)) :
    p.IsLiteral := by
  rcases take?_cases h with ⟨q, r, hq, rfl, rfl, -⟩ | ⟨r, rfl, rfl, -⟩
  · have hblank : isBlank q = false := by
      rw [← Bool.not_eq_true]
      intro hblank
      rw [Text.isQuote_eq_false hblank] at hq
      cases hq
    exact ⟨by simp [Piece.text, Text.blank, hblank], by simp⟩
  · exact ⟨rfl, by simp⟩

/-- A literal that is open at the end of a text takes in a letter, and the
pieces before it stay. -/
theorem exists_pieces_open {t : Text} {p : Piece} (hlast : (pieces t).getLast? = some p)
    (hopen : p.closed = false) :
    p.IsLiteral ∧ ∃ p', p'.IsLiteral ∧ pieces (t ++ ['x']) = (pieces t).dropLast ++ [p'] := by
  fun_induction pieces t with
  | case1 => cases hlast
  | case2 c r q rest h ih =>
      -- A literal at the end takes the letter; one with something behind it stays.
      by_cases hrest : rest = []
      · subst hrest
        obtain rfl : q = p := by simpa [pieces] using hlast
        obtain ⟨p', htake⟩ := Literal.exists_take?_open h hopen
        refine ⟨Literal.isLiteral_of_take? h, p', Literal.isLiteral_of_take? htake, ?_⟩
        rw [pieces_of_take? htake]
        simp [pieces]
      · have hne : pieces rest ≠ [] := fun hnil => hrest (by rw [← text_pieces rest, hnil]; rfl)
        rw [List.getLast?_cons_of_ne_nil hne] at hlast
        obtain ⟨hp, p', hp', hpieces⟩ := ih hlast
        refine ⟨hp, p', hp', ?_⟩
        rw [pieces_of_take? (Literal.take?_append h (fun hnil => absurd hnil hrest) ['x']), hpieces,
          List.dropLast_cons_of_ne_nil hne]
        rfl
  | case3 c r h ih =>
      by_cases hr : r = []
      · -- A character is not open.
        subst hr
        obtain rfl : .plain c = p := by simpa [pieces] using hlast
        cases hopen
      · have hne : pieces r ≠ [] := fun hnil => hr (by rw [← text_pieces r, hnil]; rfl)
        rw [List.getLast?_cons_of_ne_nil hne] at hlast
        obtain ⟨hp, p', hp', hpieces⟩ := ih hlast
        have hplain : Literal.take? (c :: (r ++ ['x'])) = none := by
          rw [Literal.take?_eq_none] at h ⊢
          rwa [List.head?_append_of_ne_nil _ hr]
        refine ⟨hp, p', hp', ?_⟩
        rw [List.cons_append, pieces_of_plain hplain, hpieces, List.dropLast_cons_of_ne_nil hne]
        rfl

/-! ### Walks -/

/-- Where the parser is: how many braces are open around it, how many brackets
in the segment that it is in, and whether that has begun. -/
structure Walk where
  braces : Nat
  brackets : Nat
  begun : Bool
  deriving Repr, DecidableEq

namespace Walk

/-- Between two segments, outside blocks. -/
def rest : Walk := ⟨0, 0, false⟩

/-- Over one piece. Inside a block only braces matter. -/
def step (w : Walk) : Piece → Walk
  | .comment _ => w
  | .string t => if w.braces = 0 then { w with begun := w.begun || !Text.blank t } else w
  | .plain c =>
    if w.braces = 0 then
      if c = '{' ∧ w.brackets = 0 then ⟨1, 0, false⟩
      else if c = ';' ∧ w.brackets = 0 then rest
      else ⟨0, Node.bracketDepth w.brackets c, w.begun || !isBlank c⟩
    else if c = '{' then ⟨w.braces + 1, 0, false⟩
    else if c = '}' then ⟨w.braces - 1, 0, false⟩
    else w

/-- Over some pieces. -/
def walk (w : Walk) (ps : List Piece) : Walk := ps.foldl step w

/-- Over nothing. -/
@[simp] theorem walk_nil (w : Walk) : w.walk [] = w := rfl

/-- Over a piece and then the others. -/
@[simp] theorem walk_cons (w : Walk) (p : Piece) (ps : List Piece) :
    w.walk (p :: ps) = (w.step p).walk ps := rfl

/-- Over some pieces and then the others. -/
theorem walk_append (w : Walk) (ps qs : List Piece) : w.walk (ps ++ qs) = (w.walk ps).walk qs :=
  List.foldl_append

/-- Inside a block the walk counts braces as the search for the closing one
does. The piece that ends the block is left out. -/
theorem step_block {depth : Nat} {p : Piece} (h : ¬ (p = .plain '}' ∧ depth = 0)) :
    step ⟨depth + 1, 0, false⟩ p = ⟨Delimiter.brace.depthPast depth p + 1, 0, false⟩ := by
  cases p with
  | comment t => rfl
  | string t => rfl
  | plain c =>
      unfold step Delimiter.depthPast
      by_cases hopen : c = '{'
      · simp [hopen, Delimiter.opening]
      · by_cases hclose : c = '}'
        · have hpos : depth ≠ 0 := fun h0 => h ⟨by rw [hclose], h0⟩
          simp only [hclose, Delimiter.opening, Delimiter.closing]
          simp
          omega
        · simp [hopen, hclose, Delimiter.opening, Delimiter.closing]

/-- The walk leaves a block where its brace is closed. -/
theorem walk_closePieces? {depth : Nat} {ps inside after : List Piece}
    (h : Delimiter.brace.closePieces? (depth + 1) ps = some (inside, after)) :
    walk ⟨depth + 1, 0, false⟩ ps = walk rest after := by
  induction ps generalizing depth inside with
  | nil => cases h
  | cons p ps ih =>
      by_cases hend : p = .plain '}' ∧ depth = 0
      · obtain ⟨rfl, rfl⟩ := hend
        cases h
        rfl
      · rw [Delimiter.closePieces?_past hend] at h
        obtain ⟨⟨inside', after'⟩, hfound, heq⟩ := Option.map_eq_some_iff.mp h
        cases heq
        rw [walk_cons, step_block hend]
        exact ih hfound

/-- Over a piece that goes to the segment. -/
theorem step_segment {p : Piece} {depth depth' : Nat} {segment : Text}
    (hp : p.passed false depth = some depth')
    (hcomment : Text.blank segment = true → ∀ t, p ≠ .comment t) :
    step ⟨0, depth, !Text.blank segment⟩ p
      = ⟨0, depth', !Text.blank (p.text.reverse ++ segment)⟩ := by
  rw [Text.blank_append, Text.blank_reverse]
  cases p with
  | plain c =>
      obtain ⟨hends, rfl⟩ := Piece.passed_plain.mp hp
      have hopen : ¬ (c = '{' ∧ depth = 0) := by
        rintro ⟨rfl, rfl⟩
        cases hends
      have hend : ¬ (c = ';' ∧ depth = 0) := by
        rintro ⟨rfl, rfl⟩
        cases hends
      simp [step, hopen, hend, Piece.text, Text.blank, Bool.or_comm]
  | string t =>
      cases hp
      simp [step, Piece.text, Bool.or_comm]
  -- A comment is counted as content only where the segment has some.
  | comment t =>
      cases hp
      have hsegment : Text.blank segment = false := by
        rw [← Bool.not_eq_true]
        exact fun hblank => hcomment hblank t rfl
      simp [step, hsegment]

/-- Brackets are open only in a segment that has begun. -/
theorem brackets_walk {w : Walk} (h : w.begun = false → w.brackets = 0) (ps : List Piece)
    (hbegun : (w.walk ps).begun = false) : (w.walk ps).brackets = 0 := by
  induction ps generalizing w with
  | nil => exact h hbegun
  | cons p ps ih =>
      refine ih (fun hstep => ?_) hbegun
      cases p with
      | comment t => exact h hstep
      | string t =>
          simp only [step] at hstep ⊢
          split at hstep
          · rw [if_pos ‹_›]
            exact h (Bool.or_eq_false_iff.mp hstep).1
          · rw [if_neg ‹_›]
            exact h hstep
      | plain c =>
          -- A bracket is no blank.
          have hmarks : isBlank c = true → Node.bracketDepth w.brackets c = w.brackets :=
            fun hblank => Text.bracketDepth_of_not_mem (Text.not_mem_marks hblank) _
          simp only [step] at hstep ⊢
          grind [rest]

end Walk

/-! ### Blocks -/

/-- Without a closing brace the search comes to no end. -/
theorem closePieces?_eq_none {qs : List Piece} (h : ∀ p ∈ qs, p ≠ .plain '}') (depth : Nat) :
    Delimiter.brace.closePieces? (depth + 1) qs = none := by
  induction qs generalizing depth with
  | nil => rfl
  | cons p qs ih =>
      obtain ⟨hp, hqs⟩ := List.forall_mem_cons.mp h
      rw [Delimiter.closePieces?_past fun hend => hp hend.1, ih hqs]
      rfl

/-- A block that is closed is closed whatever follows it. What stands at the
end and closes nothing may as well be something else. -/
theorem exists_closePieces?_append {depth : Nat} {ps qs inside after : List Piece}
    (hqs : ∀ p ∈ qs, p ≠ .plain '}')
    (h : Delimiter.brace.closePieces? (depth + 1) (ps ++ qs) = some (inside, after)) :
    ∃ after', (∀ qs', Delimiter.brace.closePieces? (depth + 1) (ps ++ qs')
        = some (inside, after' ++ qs'))
      ∧ after = after' ++ qs ∧ after'.length < ps.length := by
  induction ps generalizing depth inside with
  | nil =>
      rw [List.nil_append, closePieces?_eq_none hqs] at h
      cases h
  | cons p ps ih =>
      -- The brace is found among the first pieces, since there is none among the others.
      by_cases hend : p = .plain '}' ∧ depth = 0
      · obtain ⟨rfl, rfl⟩ := hend
        cases h
        exact ⟨ps, fun qs' => rfl, rfl, Nat.lt_succ_self _⟩
      · rw [List.cons_append, Delimiter.closePieces?_past hend] at h
        obtain ⟨⟨inside', after₁⟩, hfound, heq⟩ := Option.map_eq_some_iff.mp h
        cases heq
        obtain ⟨after', hall, hafter, hlength⟩ := ih hfound
        refine ⟨after', fun qs' => ?_, hafter, Nat.lt_succ_of_lt hlength⟩
        rw [List.cons_append, Delimiter.closePieces?_past hend, hall]
        rfl

namespace Node

/-! ### Fronts -/

/-- A piece that goes to the segment. -/
theorem parsePieces_pass {p : Piece} {depth depth' : Nat} {segment : Text}
    (hp : p.passed false depth = some depth')
    (hcomment : Text.blank segment = true → ∀ t, p ≠ .comment t) (seen : Text) (ps : List Piece) :
    parsePieces seen depth segment (p :: ps)
      = parsePieces (p.text.reverse ++ seen) depth' (p.text.reverse ++ segment) ps := by
  cases p with
  | plain c =>
      obtain ⟨hends, rfl⟩ := Piece.passed_plain.mp hp
      exact parsePieces_plain hends seen segment ps
  | string t =>
      cases hp
      exact parsePieces_string t seen depth segment ps
  | comment t =>
      cases hp
      have hsegment : Text.blank segment = false := by
        rw [← Bool.not_eq_true]
        exact fun hblank => hcomment hblank t rfl
      exact parsePieces_comment hsegment t seen depth ps

/-- The parser gets over pieces by making some nodes, and is then in a state
that does not depend on what follows. -/
def Crosses (seen : Text) (depth : Nat) (segment : Text) (ps : List Piece) : Prop :=
  ∃ front seen' depth' segment',
    Walk.walk ⟨0, depth, !Text.blank segment⟩ ps = ⟨0, depth', !Text.blank segment'⟩
    ∧ ∀ qs, parsePieces seen depth segment (ps ++ qs)
      = (parsePieces seen' depth' segment' qs).map (front ++ ·)

/-- There is nothing to get over. -/
theorem Crosses.nil (seen : Text) (depth : Nat) (segment : Text) :
    Crosses seen depth segment [] := by
  refine ⟨[], seen, depth, segment, rfl, fun qs => ?_⟩
  rw [List.nil_append]
  cases parsePieces seen depth segment qs <;> rfl

/-- One step, which makes some nodes, and then the others. -/
theorem Crosses.cons {seen seen' segment segment' : Text} {depth depth' : Nat} {ps ps' : List Piece}
    (nodes : List Node) (h : Crosses seen' depth' segment' ps')
    (hwalk : Walk.walk ⟨0, depth, !Text.blank segment⟩ ps
      = Walk.walk ⟨0, depth', !Text.blank segment'⟩ ps')
    (hstep : ∀ qs, parsePieces seen depth segment (ps ++ qs)
      = (parsePieces seen' depth' segment' (ps' ++ qs)).map (nodes ++ ·)) :
    Crosses seen depth segment ps := by
  obtain ⟨front, seen₁, depth₁, segment₁, hwalk', hrun⟩ := h
  refine ⟨nodes ++ front, seen₁, depth₁, segment₁, hwalk.trans hwalk', fun qs => ?_⟩
  rw [hstep, hrun]
  cases parsePieces seen₁ depth₁ segment₁ qs with
  | error e => rfl
  | ok found => simp [Except.map]

/-- Adding no nodes is adding nothing. -/
theorem map_nil_append (x : Except ParseError (List Node)) : x.map ([] ++ ·) = x := by
  cases x <;> rfl

/-- Where the parser succeeds, it gets over what stands before something that
closes no block. -/
theorem crosses_of_parsePieces {ps qs : List Piece} (hqs : ∀ p ∈ qs, p ≠ .plain '}')
    {seen segment : Text} {depth : Nat} {nodes : List Node}
    (h : parsePieces seen depth segment (ps ++ qs) = .ok nodes) : Crosses seen depth segment ps := by
  -- The pieces of a block are skipped, so the induction is on the number of pieces.
  induction hn : ps.length using Nat.strongRecOn generalizing ps seen segment depth nodes with
  | ind n ih =>
      cases ps with
      | nil => exact .nil seen depth segment
      | cons p ps =>
          have hlength : ps.length < n := by
            rw [← hn]
            exact Nat.lt_succ_self _
          rw [List.cons_append] at h
          rcases parsePieces_cases h with ⟨seen', depth', hp, hcomment, -⟩
            | ⟨hblank, t, rfl⟩ | ⟨rfl, rfl | rfl⟩
          · rw [parsePieces_pass hp hcomment] at h
            refine (ih _ hlength h rfl).cons [] ?_ fun qs' => ?_
            · rw [Walk.walk_cons, Walk.step_segment hp hcomment]
            · rw [List.cons_append, parsePieces_pass hp hcomment, map_nil_append]
          · rw [parsePieces_comment_node hblank] at h
            obtain ⟨nodes', hrest, rfl⟩ := exists_of_map_ok h
            refine (ih _ hlength hrest rfl).cons [.comment t] ?_ fun qs' => ?_
            · rw [Walk.walk_cons, hblank]
              rfl
            · rw [List.cons_append, parsePieces_comment_node hblank]
              rfl
          · obtain ⟨node, nodes', hnode, hrest, rfl⟩ := exists_of_parsePieces_semicolon h
            refine (ih _ hlength hrest rfl).cons node.toList ?_ fun qs' => ?_
            · rfl
            · rw [List.cons_append, parsePieces_semicolon hnode]
          · obtain ⟨inside, after, children, nodes', hclose, hchildren, hrest, rfl⟩ :=
              exists_of_parsePieces_brace h
            rw [closePieces?_open] at hclose
            obtain ⟨⟨inside', after'⟩, hfound, heq⟩ := Option.map_eq_some_iff.mp hclose
            cases heq
            obtain ⟨after, hall, rfl, hshorter⟩ := exists_closePieces?_append hqs hfound
            have hfewer : after.length < n := Nat.lt_trans hshorter hlength
            refine (ih _ hfewer hrest rfl).cons
              [.rule (Text.collapse segment.reverse) children] ?_ fun qs' => ?_
            · have halone := hall []
              rw [List.append_nil, List.append_nil] at halone
              exact Walk.walk_closePieces? halone
            · have hclose' : Delimiter.brace.closePieces? 0 (.plain '{' :: (ps ++ qs'))
                  = some (.plain '{' :: inside', after ++ qs') := by
                rw [closePieces?_open, hall]
                rfl
              rw [List.cons_append, parsePieces_close hclose' hchildren]
              rfl

/-! ### Blanks before a segment -/

/-- Segments that differ in the blanks in front only. -/
def SameSegment (segment segment' : Text) : Prop :=
  Text.trimStart segment.reverse = Text.trimStart segment'.reverse

namespace SameSegment

variable {segment segment' : Text}

/-- Blank segments are the same. -/
theorem of_blank (h : Text.blank segment = true) (h' : Text.blank segment' = true) :
    SameSegment segment segment' := by
  rw [← Text.blank_reverse, ← Text.trimStart_eq_nil_iff] at h h'
  exact h.trans h'.symm

/-- One of them is blank just if the other one is. -/
theorem blank_eq (h : SameSegment segment segment') :
    Text.blank segment' = Text.blank segment := by
  rw [Bool.eq_iff_iff, ← Text.blank_reverse segment', ← Text.blank_reverse segment,
    ← Text.trimStart_eq_nil_iff, ← Text.trimStart_eq_nil_iff, h]

/-- They stay the same when both go on. -/
theorem push (h : SameSegment segment segment') (t : Text) :
    SameSegment (t.reverse ++ segment) (t.reverse ++ segment') := by
  have hsame := h.blank_eq
  unfold SameSegment at h ⊢
  rw [List.reverse_append, List.reverse_append, List.reverse_reverse]
  cases hblank : Text.blank segment with
  | true =>
      rw [hblank, ← Text.blank_reverse] at hsame
      rw [← Text.blank_reverse] at hblank
      rw [Text.trimStart_append hblank, Text.trimStart_append hsame]
  | false =>
      rw [hblank, ← Text.blank_reverse] at hsame
      rw [← Text.blank_reverse] at hblank
      rw [Text.trimStart_append_of_not_blank hblank, Text.trimStart_append_of_not_blank hsame, h]

/-- The same node is made of them. -/
theorem ofSegment_eq (h : SameSegment segment segment') :
    ofSegment segment'.reverse = ofSegment segment.reverse := by
  unfold SameSegment at h
  unfold ofSegment Text.trim
  rw [h]

/-- They are the same header. -/
theorem collapse_eq (h : SameSegment segment segment') :
    Text.collapse segment'.reverse = Text.collapse segment.reverse := by
  unfold SameSegment at h
  rw [← Text.collapse_trim, ← Text.collapse_trim segment.reverse, Text.trim, Text.trim, h]

end SameSegment

/-- What is read does not depend on what was seen before, and on blanks before
the segment. -/
theorem parsePieces_same {ps : List Piece} {seen seen' segment segment' : Text} {depth : Nat}
    {nodes : List Node} (hsame : SameSegment segment segment')
    (h : parsePieces seen depth segment ps = .ok nodes) :
    parsePieces seen' depth segment' ps = .ok nodes := by
  induction hn : ps.length using Nat.strongRecOn
    generalizing ps seen seen' segment segment' depth nodes with
  | ind n ih =>
      cases ps with
      | nil =>
          rw [parsePieces] at h ⊢
          rwa [hsame.ofSegment_eq]
      | cons p ps =>
          have hlength : ps.length < n := by
            rw [← hn]
            exact Nat.lt_succ_self _
          -- The parser looks at the segment only for whether it is blank, and when it is ended.
          rcases parsePieces_cases h with ⟨-, depth', hp, hcomment, -⟩
            | ⟨hblank, t, rfl⟩ | ⟨rfl, rfl | rfl⟩
          · rw [parsePieces_pass hp hcomment] at h
            rw [parsePieces_pass hp (by rwa [hsame.blank_eq])]
            exact ih _ hlength (hsame.push p.text) h rfl
          · rw [parsePieces_comment_node hblank] at h
            obtain ⟨nodes', hrest, rfl⟩ := exists_of_map_ok h
            rw [parsePieces_comment_node (hsame.blank_eq.trans hblank), ih _ hlength rfl hrest rfl]
            rfl
          · obtain ⟨node, nodes', hnode, hrest, rfl⟩ := exists_of_parsePieces_semicolon h
            rw [parsePieces_semicolon (hsame.ofSegment_eq.trans hnode), ih _ hlength rfl hrest rfl]
            rfl
          · obtain ⟨inside, after, children, nodes', hclose, hchildren, hrest, rfl⟩ :=
              exists_of_parsePieces_brace h
            have hafter : after.length < n := by
              have htext := congrArg List.length (Delimiter.closePieces?_eq hclose)
              simp only [List.length_append, List.length_cons] at htext
              omega
            rw [parsePieces_close hclose hchildren, ih _ hafter rfl hrest rfl, hsame.collapse_eq]
            rfl

/-! ### Texts at rest -/

/-- A text after which the parser is between two segments, outside blocks, and
no literal is open. -/
structure AtRest (t : Text) : Prop where
  walk : Walk.rest.walk (pieces t) = Walk.rest
  closed : ∀ p ∈ (pieces t).getLast?, p.closed = true

instance (t : Text) : Decidable (AtRest t) :=
  decidable_of_iff
    (Walk.rest.walk (pieces t) = Walk.rest ∧ ∀ p ∈ (pieces t).getLast?, p.closed = true)
    ⟨fun h => ⟨h.1, h.2⟩, fun h => ⟨h.walk, h.closed⟩⟩

/-- No comment begins with the end of such a text. -/
theorem AtRest.noSlash {t : Text} (h : AtRest t) : (pieces t).getLast? ≠ some (.plain '/') := by
  intro hlast
  obtain ⟨front, hfront⟩ := List.getLast?_eq_some_iff.mp hlast
  have hwalk := h.walk
  rw [hfront, Walk.walk_append] at hwalk
  have hstep : (Walk.rest.walk front).step (.plain '/') = Walk.rest := hwalk
  grind [Walk.step, Walk.rest, isBlank]

/-- A text that is at rest may stand before any other. -/
theorem parse_append {t s : Text} {nodes more : List Node} (h : AtRest t) (ht : parse t = .ok nodes)
    (hs : parse s = .ok more) : parse (t ++ s) = .ok (nodes ++ more) := by
  have hparse : parsePieces [] 0 [] (pieces t ++ []) = .ok nodes := by rwa [List.append_nil]
  obtain ⟨front, seen, depth, segment, hwalk, hrun⟩ := crosses_of_parsePieces (by simp) hparse
  have hrest : Walk.rest = ⟨0, depth, !Text.blank segment⟩ := h.walk.symm.trans hwalk
  obtain ⟨-, hdepth, hbegun⟩ := Walk.mk.inj hrest
  subst hdepth
  have hblank : Text.blank segment = true := by simpa using hbegun.symm
  -- Nothing is made of the blanks at the end, so all nodes of the text are there by then.
  have hnodes : nodes = front := by
    rw [hrun [], parsePieces, ofSegment_blank (by rwa [Text.blank_reverse])] at hparse
    simpa [Except.map] using hparse.symm
  have hmore : parsePieces seen 0 segment (pieces s) = .ok more :=
    parsePieces_same (.of_blank rfl hblank) hs
  rw [parse, pieces_append_of_last h.closed fun hlast => absurd hlast h.noSlash, hrun, hmore, hnodes]
  rfl

/-- A segment that has begun makes one node. -/
theorem length_ofSegment {t : Text} {node : Option Node} (ht : Text.blank t = false)
    (h : ofSegment t = .ok node) : node.toList.length = 1 := by
  have htrim : Text.trim t ≠ [] := by
    intro hnil
    obtain ⟨front, back, hfront, hback, heq⟩ := Text.exists_eq_trim t
    rw [heq, hnil, List.nil_append, Text.blank_append, hfront, hback] at ht
    cases ht
  obtain ⟨c, r, hcons⟩ := List.exists_cons_of_ne_nil htrim
  simp only [ofSegment, hcons] at h
  split at h
  · obtain ⟨n, -, rfl⟩ := exists_of_map_ok h
    rfl
  · split at h
    · cases h
      rfl
    · split at h
      · cases h
        rfl
      · cases h
        rfl

/-- At the end of all, a segment that has begun makes one node. -/
theorem length_last {seen segment : Text} {depth : Nat} {nodes : List Node}
    (hsegment : Text.blank segment = false)
    (h : parsePieces seen depth segment [] = .ok nodes) : nodes.length = 1 := by
  rw [parsePieces] at h
  cases hnode : ofSegment segment.reverse with
  | error e =>
      rw [hnode] at h
      cases h
  | ok node =>
      rw [hnode] at h
      cases h
      exact length_ofSegment (by rwa [Text.blank_reverse]) hnode

/-- One piece that is not blank makes one node, with the segment before it if
that has begun. -/
theorem length_single {seen segment : Text} {depth : Nat} {p : Piece} {nodes : List Node}
    (hp : Text.blank p.text = false) (hend : p ≠ .plain ';') (hopen : p ≠ .plain '{')
    (h : parsePieces seen depth segment [p] = .ok nodes) : nodes.length = 1 := by
  rcases parsePieces_cases h with ⟨seen', depth', -, -, hrest⟩ | ⟨hblank, t, rfl⟩ | ⟨-, rfl | rfl⟩
  · refine length_last ?_ hrest
    rw [Text.blank_append, Text.blank_reverse, hp]
    rfl
  · rw [parsePieces_comment_node hblank, parsePieces, ofSegment_blank rfl] at h
    cases h
    rfl
  · exact absurd rfl hend
  · exact absurd rfl hopen

/-- Two ways to go on that make one node each make as many nodes together with
those before them. -/
theorem length_eq_of_run {before nodes nodes' : List Node} {x x' : Except ParseError (List Node)}
    (hx : ∀ own, x = .ok own → own.length = 1) (hx' : ∀ own, x' = .ok own → own.length = 1)
    (h : x.map (before ++ ·) = .ok nodes) (h' : x'.map (before ++ ·) = .ok nodes') :
    nodes.length = nodes'.length := by
  obtain ⟨own, hown, rfl⟩ := exists_of_map_ok h
  obtain ⟨own', hown', rfl⟩ := exists_of_map_ok h'
  rw [List.length_append, List.length_append, hx own hown, hx' own' hown']

/-- A text that may stand before a letter is at rest. Otherwise the letter would
be taken in, and there would not be one node more. -/
theorem atRest_of_parse {t : Text} {nodes : List Node} (ht : parse t = .ok nodes)
    (h : parse (t ++ ['x']) = .ok (nodes ++ [.statement ['x']])) : AtRest t := by
  have hmore : nodes.length ≠ (nodes ++ [Node.statement ['x']]).length := by simp
  -- An open literal would take the letter, and no node would be added.
  have hclosed : ∀ p ∈ (pieces t).getLast?, p.closed = true := by
    intro p hlast
    by_contra hnot
    have hopen : p.closed = false := by simpa using hnot
    obtain ⟨hp, p', hp', hpieces⟩ := exists_pieces_open hlast hopen
    obtain ⟨front, hfront⟩ := List.getLast?_eq_some_iff.mp hlast
    rw [hfront, List.dropLast_concat] at hpieces
    rw [parse, hfront] at ht
    rw [parse, hpieces] at h
    have hnone : ∀ q ∈ [p], q ≠ .plain '}' := by simpa using hp.2 '}'
    obtain ⟨before, seen, depth, segment, -, hrun⟩ := crosses_of_parsePieces hnone ht
    rw [hrun] at ht h
    exact hmore (length_eq_of_run (fun _ => length_single hp.1 (hp.2 _) (hp.2 _))
      (fun _ => length_single hp'.1 (hp'.2 _) (hp'.2 _)) ht h)
  refine ⟨?_, hclosed⟩
  have hparse : parsePieces [] 0 [] (pieces t ++ []) = .ok nodes := by rwa [List.append_nil]
  obtain ⟨before, seen, depth, segment, hwalk, hrun⟩ := crosses_of_parsePieces (by simp) hparse
  have hend : Walk.rest.walk (pieces t) = ⟨0, depth, !Text.blank segment⟩ := hwalk
  -- With a segment begun the letter would be a part of it, and again no node would be added.
  cases hblank : Text.blank segment with
  | true =>
      rw [hblank] at hend
      have hbrackets : (Walk.rest.walk (pieces t)).brackets = 0 :=
        Walk.brackets_walk (fun _ => rfl) _ (by rw [hend]; rfl)
      rw [hend] at hbrackets ⊢
      obtain rfl : depth = 0 := hbrackets
      rfl
  | false =>
      have hpieces : pieces (t ++ ['x']) = pieces t ++ [.plain 'x'] := by
        rw [pieces_append_of_last hclosed (by simp), pieces_cons (by decide) (by decide), pieces]
      rw [parse, hpieces, hrun] at h
      rw [hrun] at hparse
      exact absurd (length_eq_of_run (fun _ => length_last hblank)
        (fun _ => length_single rfl (by decide) (by decide)) hparse h) hmore

/-- A letter alone is a statement. -/
theorem parse_letter : parse ['x'] = .ok [.statement ['x']] := by
  have hpieces : pieces ['x'] = [.plain 'x'] := by
    rw [pieces_cons (by decide) (by decide), pieces]
  have hblank : Text.blank [] = true := rfl
  have hcolon : hasTop ':' 0 (pieces ['x']) = false := by
    rw [hpieces]
    rfl
  have hnode : ofSegment ['x'].reverse = .ok (some (.statement ['x'])) :=
    ofSegment_statement (.singleton rfl) (by simp) rfl (by simp) (fun _ => hcolon) hblank
  have hends : endsSegment false 0 'x' = false := rfl
  rw [parse, hpieces, parsePieces_plain hends, parsePieces, hnode]
  rfl

/-- A stylesheet can stand before every other one just if it is at rest. -/
theorem parse_append_iff {t : Text} {nodes : List Node} (ht : parse t = .ok nodes) :
    AtRest t ↔ ∀ s more, parse s = .ok more → parse (t ++ s) = .ok (nodes ++ more) := by
  constructor
  · exact fun h s more hs => parse_append h ht hs
  · exact fun h => atRest_of_parse ht (h _ _ parse_letter)

/-- A text that is read as some nodes whatever follows it is at rest. -/
theorem ReadsAs.atRest {nodes : List Node} {t : Text} {nested : Bool} (h : ReadsAs nodes t nested) :
    AtRest t := by
  refine (parse_append_iff (h.fills.run [] [] rfl)).mpr fun s more hs => ?_
  obtain ⟨seen, segment, hsegment, hrun⟩ := h.run [] [] (pieces s) rfl
  have hmore : parsePieces seen 0 segment (pieces s) = .ok more :=
    parsePieces_same (.of_blank rfl hsegment) hs
  rw [parse, h.pieces_append, hrun, hmore]
  rfl

/-- Blanks at the end of a segment are trimmed. -/
theorem ofSegment_append_gap {gap : Text} (hgap : Text.blank gap = true) (t : Text) :
    ofSegment (t ++ gap) = ofSegment t := by
  have htrim : Text.trim (t ++ gap) = Text.trim t := by
    cases ht : Text.blank t with
    | true =>
        rw [Text.trim_eq_nil ht, Text.trim_eq_nil (by rw [Text.blank_append, ht, hgap]; rfl)]
    | false =>
        unfold Text.trim
        rw [Text.trimStart_append_of_not_blank ht, Text.trimEnd_append hgap]
  unfold ofSegment
  rw [htrim]

/-- Blanks at the end of a block are lost. -/
theorem FillsAs.append_gap {nodes : List Node} {t gap : Text} {nested : Bool}
    (h : FillsAs nodes t nested) (hgap : Text.blank gap = true) :
    FillsAs nodes (t ++ gap) nested := by
  have hgap' : ReadsAs [] gap nested := .gap hgap
  have hstar : gap.head? ≠ some '*' := by
    cases gap with
    | nil => simp
    | cons c gap =>
        have hc := Text.blank_iff.mp hgap c List.mem_cons_self
        simpa using Text.ne_of_isBlank hc (by decide)
  have hpieces := pieces_append_of_head h.closed hstar
  refine ⟨?_, fun hnested => ?_, fun seen segment hsegment => ?_⟩
  · rw [hpieces, List.forall_mem_append]
    exact ⟨h.closed, hgap'.closed⟩
  · rw [hpieces]
    exact (h.neutral hnested).append (hgap'.neutral hnested)
  · have hparse : parsePieces seen 0 segment (pieces t ++ []) = .ok nodes := by
      rw [List.append_nil, h.run seen segment hsegment]
    obtain ⟨front, seen', depth, segment', -, hrun⟩ := crosses_of_parsePieces (by simp) hparse
    -- The last segment is trimmed, so it makes the same node with the blanks as without them.
    have hlast : parsePieces seen' depth segment' (pieces gap)
        = parsePieces seen' depth segment' [] := by
      have hover := parsePieces_gap hgap seen' depth segment' []
      rw [List.append_nil] at hover
      rw [Text.pieces_blank hgap, hover, parsePieces, parsePieces, List.reverse_append,
        List.reverse_reverse, ofSegment_append_gap hgap]
    rw [hpieces, hrun, hlast, ← hrun, hparse]

end Node

end Stylesheet
