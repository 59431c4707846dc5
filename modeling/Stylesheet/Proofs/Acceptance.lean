import Stylesheet.Proofs.Normalization
import Stylesheet.Proofs.Parsed

/-!
# What flattening writes is accepted

`parse` fails where a brace does not fit and where an import is cut inside
a character. When a stylesheet that was read is flattened and written down,
does `parse` accept the text? It does not matter here which nodes are read
back, so the nodes of `ReadsAs` and `FillsAs` are forgotten: `Passes` and
`Fills` only say that there are some. Both are closed under what flattening
does with texts.

Most of a flattened stylesheet is copied, and `Items` says of it what is
needed. Two things are put together anew, and they can come out wrong:
imports get other quotes, and selectors are composed of several headers.
`Step.Writable` asks of both that they stay in one piece.
`parse_flatten_ok` is the result. It also asks that the literals of the
text are closed. A string may be left open at the end of its line, but the
line feed is lost when its value is trimmed or its header is collapsed, and
then the string goes on behind it. None of this can be left out
(`parse_flatten_refused`).
-/

set_option autoImplicit false

namespace Stylesheet

namespace Node

/-! ### Texts that are accepted -/

/-- A text that may stand before anything that is accepted. -/
def Passes (nested : Bool) (t : Text) : Prop := ∃ nodes, ReadsAs nodes t nested

/-- A text that is accepted as all there is inside a block, or in a
stylesheet. -/
def Fills (nested : Bool) (t : Text) : Prop := ∃ nodes, FillsAs nodes t nested

namespace Passes

variable {nested : Bool}

/-- Nothing may stand anywhere. -/
theorem nil : Passes nested [] := ⟨[], .gap rfl⟩

/-- One text after the other. -/
theorem append {s t : Text} (hs : Passes nested s) (ht : Passes nested t) :
    Passes nested (s ++ t) := by
  obtain ⟨nodes, hs⟩ := hs
  obtain ⟨nodes', ht⟩ := ht
  exact ⟨nodes ++ nodes', hs.append ht⟩

/-- Before the rest of a block. -/
theorem append_fills {s t : Text} (hs : Passes nested s) (ht : Fills nested t) :
    Fills nested (s ++ t) := by
  obtain ⟨nodes, hs⟩ := hs
  obtain ⟨nodes', ht⟩ := ht
  exact ⟨nodes ++ nodes', hs.append_fills ht⟩

/-- What may stand before anything may be all there is. -/
theorem fills {t : Text} (h : Passes nested t) : Fills nested t := by
  obtain ⟨nodes, h⟩ := h
  exact ⟨nodes, h.fills⟩

/-- Texts one after the other. -/
theorem flatten {ts : List Text} (h : ∀ t ∈ ts, Passes nested t) : Passes nested ts.flatten := by
  induction ts with
  | nil => exact nil
  | cons t ts ih =>
      rw [List.forall_mem_cons] at h
      rw [List.flatten_cons]
      exact h.1.append (ih h.2)

/-- A block behind its header. -/
theorem block {header inside : Text} (hheader : Text.IsSegment nested 0 header)
    (hinside : Fills true inside) : Passes nested (Node.block header inside) := by
  obtain ⟨children, hinside⟩ := hinside
  have hblank : Text.blank [] = true := rfl
  exact ⟨_, ReadsAs.block hheader hblank hinside⟩

end Passes

/-- A text that begins with no import is some node, or none if it is
blank. -/
theorem exists_ofSegment {t : Text} (hends : Text.HasEnds t)
    (himport : Text.beginsImport t = false) :
    ∃ node, ∀ gap, Text.blank gap = true → ofSegment (gap ++ t) = .ok node := by
  by_cases hne : t = []
  · refine ⟨none, ?_⟩
    intro gap hgap
    rw [hne, List.append_nil, ofSegment_blank hgap]
  · exact ⟨_, fun gap hgap => ofSegment_eq (Text.trim_behind hends hgap) hne himport⟩

/-- A line in which brackets are left open, with its semicolon. The
semicolon belongs to the line then. -/
theorem fills_openLine {nested : Bool} {depth : Nat} {t : Text}
    (ht : Text.IsSegment nested (depth + 1) t) (himport : Text.beginsImport t = false) :
    Fills nested (t ++ [';']) := by
  have hpieces := pieces_semicolon ht.closed
  have hkeyword : Text.beginsImport (t ++ [';']) = false := by
    rw [Text.beginsImport_append (by decide), himport]
  have hends : Text.HasEnds (t ++ [';']) := by
    refine ⟨?_, by simp [isBlank]⟩
    cases t with
    | nil => simp [isBlank]
    | cons c t => exact ht.head
  obtain ⟨node, hnode⟩ := exists_ofSegment hends hkeyword
  refine ⟨node.toList, ?_, fun hnested => ?_, ?_⟩
  · rw [hpieces, List.forall_mem_append, List.forall_mem_singleton]
    exact ⟨ht.closed, rfl⟩
  · rw [hpieces]
    exact (ht.neutral hnested).append (.of_forall (by simp))
  · -- Inside brackets the semicolon ends nothing: the block ends before the line does.
    intro seen segment hblank
    have hinside : endsSegment false (depth + 1) ';' = false := by simp [endsSegment]
    have hreverse : (';' :: (t.reverse ++ segment)).reverse = segment.reverse ++ (t ++ [';']) := by
      simp
    rw [hpieces, parsePieces_segment ht, parsePieces_plain hinside, parsePieces, hreverse,
      hnode _ (by rwa [Text.blank_reverse])]

/-! ### What is copied -/

/-- A line that leaves no bracket open, with its semicolon. -/
theorem IsLine.passes {nested : Bool} {n : Node} (h : n.IsLine nested 0) :
    Passes nested n.compact := by
  obtain ⟨t, htext, -, ht, himport⟩ := h
  obtain ⟨node, hnode⟩ := exists_ofSegment ht.toHasEnds himport
  rw [htext]
  exact ⟨node.toList, .segment ht.isSegment hnode⟩

/-- The last line of a block, whether or not it leaves brackets open. -/
theorem IsLine.fills {nested : Bool} {depth : Nat} {n : Node} (h : n.IsLine nested depth) :
    Fills nested n.compact := by
  cases depth with
  | zero => exact h.passes.fills
  | succ depth =>
      obtain ⟨t, htext, -, ht, himport⟩ := h
      rw [htext]
      exact fills_openLine ht.isSegment himport

/-- An item may stand anywhere, or it is the last one. -/
theorem passes_or_last {nested : Bool} {n : Node} {rest : List Node}
    (h : Items nested (n :: rest)) (hown : n.isOwn = true) :
    Passes nested n.compact ∨ rest = [] ∧ n.needsSelector = true ∧ Fills nested n.compact := by
  cases h with
  | comment halone hclosed hrest => exact .inl ⟨_, .comment halone hclosed⟩
  | importUrl hmedia hrest => cases hown
  | line hn hrest => exact .inl hn.isLine.passes
  | last hn => exact .inr ⟨rfl, hn.needsSelector, hn.isLine.fills⟩
  | rule hheader hcollapsed hchildren hrest => cases hown

/-- A comment that was read. -/
theorem passes_comment {nested : Bool} {t : Text} {rest : List Node}
    (h : Items nested (.comment t :: rest)) : Passes nested t := by
  rcases passes_or_last h rfl with ht | ⟨-, hneeds, -⟩
  · exact ht
  · cases hneeds

/-- The items that belong to the block of a rule. -/
theorem fills_own {nested : Bool} {nodes : List Node} (h : Items nested nodes) :
    Fills nested (compactAll (nodes.filter isOwn)) := by
  induction nodes with
  | nil => exact Passes.nil.fills
  | cons n rest ih =>
      have hrest := ih h.tail
      cases hown : n.isOwn with
      | false => rwa [List.filter_cons_of_neg (by simp [hown])]
      | true =>
          rw [List.filter_cons_of_pos hown, compactAll]
          rcases passes_or_last h hown with hn | ⟨rfl, -, hn⟩
          · exact hn.append_fills hrest
          · rwa [List.filter_nil, compactAll, List.append_nil]

/-! ### What is put together anew -/

/-- An import, with its target in other quotes than before. -/
theorem passes_import (nested : Bool) {url media : Text} (hmedia : Text.HasEnds media)
    (hcontained : Text.IsContained (renderImport url media)) (huncut : IsUncut url media) :
    Passes nested (renderImport url media ++ [';']) := by
  have hcomment : Text.beginsComment (renderImport url media) = false := by
    rw [renderImport_eq, keyword_eq]
    rfl
  have hsegment : Text.IsSegment nested 0 (renderImport url media) :=
    hcontained.isSegment (hasEnds_renderImport url hmedia).head hcomment
  -- Whatever the target is read as, only its first bytes can make the reading fail.
  obtain ⟨n, hn⟩ : ∃ n, parseImport (' ' :: apostrophe :: (url ++ apostrophe :: mediaTail media))
      = .ok n := by
    have hplace : (4 ≤ Text.size (apostrophe :: (url ++ apostrophe :: mediaTail media))
        && !isPlace 4 (apostrophe :: (url ++ apostrophe :: mediaTail media))) = false := by
      simpa [IsUncut] using huncut
    rw [parseImport, trim_target url hmedia]
    simp only [hplace, Bool.false_eq_true, if_false]
    exact ⟨_, rfl⟩
  refine ⟨[n], .line hsegment ?_⟩
  intro gap hgap
  rw [ofSegment_renderImport url hmedia hgap, hn]
  rfl

/-- What a step of the walk through a stylesheet makes anew can be written
down: an import stays in one statement, and a header that selectors are
composed from, because there are rules around or inside its rule, stays in
one piece wherever it is put. -/
def Step.Writable (skip : List Text) : Step → Prop
  | ⟨around, .enter header children⟩ =>
    isGrouping skip header = false → selectorChain skip around ≠ [] ∨ children.any isRule = true →
      Selector.IsHeader header
  | ⟨_, .pass (importUrl url media)⟩ =>
    Text.IsContained (renderImport url media) ∧ IsUncut url media
  | _ => True

instance (skip : List Text) : (s : Step) → Decidable (s.Writable skip)
  | ⟨_, .enter _ _⟩ => inferInstanceAs (Decidable (_ → _ → _))
  | ⟨_, .leave _ _⟩ => inferInstanceAs (Decidable True)
  | ⟨_, .pass (importUrl _ _)⟩ => inferInstanceAs (Decidable (_ ∧ _))
  | ⟨_, .pass (comment _)⟩ => inferInstanceAs (Decidable True)
  | ⟨_, .pass (declaration _ _)⟩ => inferInstanceAs (Decidable True)
  | ⟨_, .pass (statement _)⟩ => inferInstanceAs (Decidable True)
  | ⟨_, .pass (rule _ _)⟩ => inferInstanceAs (Decidable True)

/-! ### Flattened stylesheets -/

/-- A flattened part of a stylesheet may stand before anything that is
accepted. Its imports will stand at the top. -/
structure Accepted (nested : Bool) (f : Flat) : Prop where
  imports : ∀ t ∈ f.imports, Passes false t
  body : Passes nested f.body

/-- A flattened stylesheet is accepted as all there is. -/
structure Finished (nested : Bool) (f : Flat) : Prop where
  imports : ∀ t ∈ f.imports, Passes false t
  body : Fills nested f.body

namespace Accepted

variable {nested : Bool}

/-- Nothing was written. -/
theorem empty : Accepted nested .empty :=
  ⟨by simp [Flat.empty], .nil⟩

/-- A text of the body. -/
theorem ofBody {t : Text} (h : Passes nested t) : Accepted nested (.ofBody t) :=
  ⟨by simp [Flat.ofBody], h⟩

/-- One part after the other. -/
theorem append {f g : Flat} (hf : Accepted nested f) (hg : Accepted nested g) :
    Accepted nested (f ++ g) :=
  ⟨List.forall_mem_append.mpr ⟨hf.imports, hg.imports⟩, hf.body.append hg.body⟩

/-- The last part may be one that nothing can follow. -/
theorem append_finished {f g : Flat} (hf : Accepted nested f) (hg : Finished nested g) :
    Finished nested (f ++ g) :=
  ⟨List.forall_mem_append.mpr ⟨hf.imports, hg.imports⟩, hf.body.append_fills hg.body⟩

/-- A part that anything can follow may be the last one. -/
theorem finished {f : Flat} (hf : Accepted nested f) : Finished nested f :=
  ⟨hf.imports, hf.body.fills⟩

end Accepted

/-- What is known of the selectors `outer` that are handed down to nodes
below the headers `around`. They matter only if there are rules among these
nodes. -/
structure Handed (skip around outer : List Text) (rules : Bool) : Prop where
  chain : outer ≠ [] → selectorChain skip around ≠ []
  isSelector : rules = true → ∀ a ∈ outer, Selector.IsSelector a

namespace Handed

variable {skip around outer : List Text}

/-- No selectors are handed down. -/
theorem nil (skip around : List Text) (rules : Bool) : Handed skip around [] rules :=
  ⟨fun h => absurd rfl h, by simp⟩

/-- They matter less where there are fewer rules. -/
theorem mono {rules rules' : Bool} (h : Handed skip around outer rules)
    (hrules : rules' = true → rules = true) : Handed skip around outer rules' :=
  ⟨h.chain, fun hr => h.isSelector (hrules hr)⟩

/-- To the children of a rule that is no grouping rule. -/
theorem rule {header : Text} {children : List Node} (h : Handed skip around outer true)
    (hh : isGrouping skip header = false)
    (hstep : Step.Writable skip ⟨around, .enter header children⟩) :
    Handed skip (around ++ [header]) (Selector.compose outer header) (children.any isRule) := by
  refine ⟨fun _ => ?_, fun hrules => ?_⟩
  · -- The header itself is at the end of the chain.
    rw [selectorChain_rule around hh]
    simp
  · exact Selector.isSelector_compose (h.isSelector rfl) (hstep hh (.inr hrules))

end Handed

/-- The blocks of a rule that is no grouping rule. -/
theorem passes_ownBlocks {skip around outer : List Text} {nested : Bool} {header : Text}
    {children : List Node} (h : Handed skip around outer true)
    (hh : isGrouping skip header = false)
    (hstep : Step.Writable skip ⟨around, .enter header children⟩)
    (hheader : Text.IsLine nested 0 header) (hchildren : Items true children) :
    Passes nested (ownBlocks outer header children) := by
  have hown := fills_own hchildren
  unfold ownBlocks
  dsimp only
  split
  · exact .nil
  · split
    · -- Without selectors above it a rule keeps its header.
      exact .block hheader.isSegment hown
    · -- There are rules above it, so its header is one that has to be composed.
      rename_i houter
      have hne : outer ≠ [] := by simpa using houter
      have hselectors := Selector.isSelector_compose (h.isSelector rfl) (hstep hh (.inl (h.chain hne)))
      refine .flatten ?_
      intro t ht
      obtain ⟨a, ha, rfl⟩ := List.mem_map.mp ht
      have hselector := hselectors a ha
      exact .block (hselector.isClean.isSegment hselector.noComment) hown

mutual

/-- A node inside rules. -/
theorem accepted_nested {skip around outer : List Text} {nested : Bool} :
    (n : Node) → {rest : List Node} → Items nested (n :: rest) →
      Handed skip around outer n.isRule → (∀ s ∈ walk around n, s.Writable skip) →
      Accepted nested (flattenNested skip outer n)
  | importUrl url media, rest, hitems, _, hsteps => by
      rw [walk_eq_pass around rfl, List.forall_mem_singleton] at hsteps
      obtain ⟨hcontained, huncut⟩ := hsteps
      rw [flattenNested]
      -- Wherever it was read, an import is written at the top.
      refine ⟨?_, .nil⟩
      rw [List.forall_mem_singleton]
      exact passes_import false hitems.of_importUrl hcontained huncut
  | rule header children, rest, hitems, h, hsteps => by
      obtain ⟨hheader, hchildren⟩ := hitems.of_rule
      rw [walk, List.forall_mem_cons, List.forall_mem_append] at hsteps
      obtain ⟨hstep, hinside, -⟩ := hsteps
      rw [flattenNested]
      cases hh : isGrouping skip header with
      | true =>
          -- The wrapper is a block like any other, whatever stands around it.
          have hinner : Accepted true (flattenGroup skip children) :=
            accepted_group children hchildren hinside
          exact ⟨hinner.imports, .block hheader.isSegment hinner.body.fills⟩
      | false =>
          -- The blocks of the children come out of the rule, to the level of its own blocks.
          have hblocks := passes_ownBlocks h hh hstep hheader hchildren
          exact (Accepted.ofBody hblocks).append
            (accepted_children children (hchildren.mono fun _ => rfl) (h.rule hh hstep) hinside)
  | comment _, _, _, _, _ => .empty
  | declaration _ _, _, _, _, _ => .empty
  | statement _, _, _, _, _ => .empty

/-- The children of a rule that is no grouping rule. -/
theorem accepted_children {skip around outer : List Text} {nested : Bool} :
    (nodes : List Node) → Items nested nodes → Handed skip around outer (nodes.any isRule) →
      (∀ s ∈ walkAll around nodes, s.Writable skip) →
      Accepted nested (flattenChildren skip outer nodes)
  | [], _, _, _ => .empty
  | n :: rest, hitems, h, hsteps => by
      rw [walkAll, List.forall_mem_append] at hsteps
      have hn : Handed skip around outer n.isRule := h.mono fun hrule => by simp [hrule]
      have hrest : Handed skip around outer (rest.any isRule) := h.mono fun hrules => by
        simp only [List.any_cons, hrules, Bool.or_true]
      exact (accepted_nested n hitems hn hsteps.1).append
        (accepted_children rest hitems.tail hrest hsteps.2)

/-- The children of a grouping rule. -/
theorem accepted_group {skip around : List Text} {nested : Bool} :
    (nodes : List Node) → Items nested nodes → (∀ s ∈ walkAll around nodes, s.Writable skip) →
      Accepted nested (flattenGroup skip nodes)
  | [], _, _ => .empty
  | n :: rest, hitems, hsteps => by
      rw [walkAll, List.forall_mem_append] at hsteps
      rw [flattenGroup_cons]
      refine Accepted.append ?_ (accepted_group rest hitems.tail hsteps.2)
      cases n with
      | comment t => exact .ofBody (passes_comment hitems)
      | _ => exact accepted_nested _ hitems (.nil skip around _) hsteps.1

end

/-- A whole stylesheet. -/
theorem finished_flatten {skip : List Text} {nested : Bool} {nodes : List Node}
    (h : Items nested nodes) (hsteps : ∀ s ∈ walkAll [] nodes, s.Writable skip) :
    Finished nested (flatten skip nodes) := by
  induction nodes with
  | nil => exact Accepted.empty.finished
  | cons n rest ih =>
      rw [walkAll, List.forall_mem_append] at hsteps
      have hrest := ih h.tail hsteps.2
      rw [flatten]
      split
      · rename_i hown
        rcases passes_or_last h hown with hn | ⟨rfl, -, hn⟩
        · exact (Accepted.ofBody hn).append_finished hrest
        · -- It may leave brackets open, because nothing is written behind it.
          refine ⟨hrest.imports, ?_⟩
          show Fills nested (n.compact ++ [])
          rwa [List.append_nil]
      · exact (accepted_nested n h (.nil skip [] _) hsteps.1).append_finished hrest

/-- **What is read and flattened can be read again**, if the literals of the
text are closed and what flattening makes anew can be written down. Texts that
are only moved need nothing: a segment stays one in its new place. But imports
get other quotes, and headers are composed with others, which is what
`Step.Writable` is about. -/
theorem parse_flatten_ok (skip : List Text) {text : Text} {nodes : List Node}
    (hparse : parse text = .ok nodes) (hclosed : ∀ p ∈ pieces text, p.closed = true)
    (hsteps : ∀ s ∈ walkAll [] nodes, s.Writable skip) :
    ∃ again, parse (flatten skip nodes).render = .ok again := by
  have hfinished : Finished false (flatten skip nodes) :=
    finished_flatten (items_of_parse hclosed hparse) hsteps
  have hrender : Fills false (flatten skip nodes).render :=
    (Passes.flatten hfinished.imports).append_fills hfinished.body
  obtain ⟨again, hagain⟩ := hrender
  exact ⟨again, hagain.run [] [] rfl⟩

/-- A target with a blank, semicolons and braces in strings, brackets that
are left open at the end of a block, and rules on both sides of a grouping
rule. -/
def sheet : Text :=
  "@import url(\"a b.css\") print;\n.a, b[title=\"x, \x7d\"] \x7b color : red ;".toList
    ++ "&:hover \x7b w : calc((1; \x7d @media print \x7b /* m */ u \x7b & i ".toList
    ++ "\x7b left: \";\" \x7d \x7d \x7d \x7d".toList

/-- The sheet is flattened and read again. -/
theorem parse_flatten_sheet :
    ∃ nodes, parse sheet = .ok nodes ∧ (∀ p ∈ pieces sheet, p.closed = true)
      ∧ (∀ s ∈ walkAll [] nodes, s.Writable defaultSkip)
      ∧ ∃ again, parse (flatten defaultSkip nodes).render = .ok again := by
  have hclosed : ∀ p ∈ pieces sheet, p.closed = true := by decide +kernel
  have hwritable : (parse sheet).map
      (fun nodes => decide (∀ s ∈ walkAll [] nodes, s.Writable defaultSkip)) = .ok true := by
    decide +kernel
  obtain ⟨nodes, hparse, hsteps⟩ := exists_of_map_ok hwritable
  have hsteps' := of_decide_eq_true hsteps.symm
  exact ⟨nodes, hparse, hclosed, hsteps', parse_flatten_ok defaultSkip hparse hclosed hsteps'⟩

/-- A text is read, but not again when it is flattened. -/
def Refused (text : Text) : Prop :=
  ∃ nodes, parse text = .ok nodes ∧ ∀ again, parse (flatten defaultSkip nodes).render ≠ .ok again

/-- The same as something that can be computed. -/
theorem refused_of_isOk {text : Text}
    (h : (parse text).map (fun nodes => (parse (flatten defaultSkip nodes).render).isOk)
      = .ok false) : Refused text := by
  obtain ⟨nodes, hparse, hagain⟩ := exists_of_map_ok h
  refine ⟨nodes, hparse, ?_⟩
  intro again hok
  rw [hok] at hagain
  cases hagain

/-- A string that ends with its line, a target that its new quotes push
over the fourth byte, an import that leaves a bracket open, and headers
that make up a comment. -/
theorem parse_flatten_refused :
    Refused "a\x7bfont-family: Don't\n\x7d".toList ∧ Refused "@import url(ab\u00e9);".toList
      ∧ Refused "a\x7b\x7d@import 'p' (".toList
      ∧ Refused "@media x\x7ba/\x7b&*b\x7bc:d\x7d\x7d\x7d".toList := by
  refine ⟨?_, ?_, ?_, ?_⟩
  · exact refused_of_isOk (by decide +kernel)
  · exact refused_of_isOk (by decide +kernel)
  · exact refused_of_isOk (by decide +kernel)
  · exact refused_of_isOk (by decide +kernel)

end Node

end Stylesheet
