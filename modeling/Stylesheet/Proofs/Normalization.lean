import Stylesheet.Proofs.Flattening
import Stylesheet.Proofs.RoundTrip
import Stylesheet.Proofs.Selectors

/-!
# Flattening again changes nothing

A flattened stylesheet is text. Read back and flattened once more, it
gives the same text (`flatten_render_stable`).

There are three parts to it. A body of blocks and wrappers, with imports
in front, is one that flattening leaves alone (`IsFlat`,
`flatten_flat`). What flattening writes is the text of such a body: this
goes along the recursion of `flatten`, with the selectors that are handed
down (`settled_nested` and the two theorems beside it). And the nodes of
that body are clean, because composed selectors are, so the parser reads
them back from the text.

A composed selector must not become the header of a grouping rule. That is
a condition on the skip list, and `flatten` does not check it.
-/

set_option autoImplicit false

namespace Stylesheet

namespace Node

/-! ### Flat bodies -/

/-- A comment, a block of items, or a grouping rule around such nodes. -/
inductive IsFlat (skip : List Text) : Node → Prop where
  | comment (t : Text) : IsFlat skip (.comment t)
  | block {header : Text} {own : List Node} (hh : isGrouping skip header = false)
      (hown : ∀ n ∈ own, n.isOwn = true) : IsFlat skip (.rule header own)
  | wrapper {header : Text} {inside : List Node} (hh : isGrouping skip header = true)
      (hinside : ∀ n ∈ inside, IsFlat skip n) : IsFlat skip (.rule header inside)

/-- No declaration stands among flat nodes. -/
theorem IsFlat.needsSelector {skip : List Text} {n : Node} (h : IsFlat skip n) :
    n.needsSelector = false := by
  cases h <;> rfl

/-- The items of a block give nothing apart from it. -/
theorem flattenChildren_own {skip outer : List Text} {own : List Node}
    (h : ∀ n ∈ own, n.isOwn = true) : flattenChildren skip outer own = .empty := by
  induction own with
  | nil => rfl
  | cons n own ih =>
      rw [List.forall_mem_cons] at h
      rw [flattenChildren, flattenNested_own h.1, ih h.2]
      rfl

/-- A block at the top is its own block. -/
theorem ownBlocks_own (header : Text) {own : List Node} (h : ∀ n ∈ own, n.isOwn = true) :
    ownBlocks [] header own = (Node.rule header own).compact := by
  have hfilter : own.filter isOwn = own := List.filter_eq_self.mpr h
  have hrules : own.any isRule = false := by
    rw [List.any_eq_false]
    intro n hn
    simp [isRule_eq_false (h n hn)]
  simp only [ownBlocks, hfilter, hrules, Bool.and_false, List.isEmpty_nil, if_true]
  rfl

/-- Nodes that are each written as they are, inside a grouping rule. -/
theorem flattenGroup_flat {skip : List Text} {inside : List Node}
    (h : ∀ n ∈ inside, (if n.isComment then .ofBody n.compact else flattenNested skip [] n)
      = Flat.ofBody n.compact) : flattenGroup skip inside = .ofBody (compactAll inside) := by
  induction inside with
  | nil => rfl
  | cons n inside ih =>
      rw [List.forall_mem_cons] at h
      rw [flattenGroup_cons, h.1, ih h.2]
      rfl

/-- A flat node inside a grouping rule is written as it is. -/
theorem IsFlat.flatten_eq {skip : List Text} {n : Node} (h : IsFlat skip n) :
    (if n.isComment then .ofBody n.compact else flattenNested skip [] n)
      = Flat.ofBody n.compact := by
  induction h with
  | comment t => rfl
  | @block header own hh hown =>
      rw [if_neg (by simp [isComment]), flattenNested, if_neg (by simp [hh]),
        ownBlocks_own header hown, flattenChildren_own hown]
      show Flat.append _ _ = _
      simp [Flat.append, Flat.ofBody, Flat.empty]
  | @wrapper header inside hh hinside ih =>
      -- Items do not stand directly inside a wrapper, so none is dropped.
      have hdropped : inside.any Node.needsSelector = false := by
        rw [List.any_eq_false]
        intro n hn
        simp [(hinside n hn).needsSelector]
      rw [if_neg (by simp [isComment]), flattenNested, if_pos hh, flattenGroup_flat ih]
      simp [hdropped, Flat.ofBody, Node.block, compact]

/-- Imports and then a flat body, which may hold items at the top, are
left alone. -/
theorem flatten_flat {skip : List Text} {imports body : List Node}
    (himports : ∀ n ∈ imports, ∃ url media, n = .importUrl url media)
    (hbody : ∀ n ∈ body, n.isOwn = true ∨ IsFlat skip n) :
    flatten skip (imports ++ body) = ⟨imports.map compact, compactAll body, []⟩ := by
  -- The body first, then the imports in front of it.
  have hflat : flatten skip body = ⟨[], compactAll body, []⟩ := by
    induction body with
    | nil => rfl
    | cons n body ih =>
        rw [List.forall_mem_cons] at hbody
        have hn : (if n.isOwn then .ofBody n.compact else flattenNested skip [] n)
            = Flat.ofBody n.compact := by
          rcases hbody.1 with hown | hn
          · rw [if_pos hown]
          · cases hn with
            | comment t => rfl
            | block hh hown => exact (IsFlat.block hh hown).flatten_eq
            | wrapper hh hinside => exact (IsFlat.wrapper hh hinside).flatten_eq
        rw [flatten, hn, ih hbody.2]
        rfl
  induction imports with
  | nil => exact hflat
  | cons n imports ih =>
      rw [List.forall_mem_cons] at himports
      obtain ⟨⟨url, media, rfl⟩, hrest⟩ := himports
      rw [List.cons_append, flatten, ih hrest]
      rfl

/-! ### What flattening writes is flat -/

/-- Nodes on one line, one after the other. -/
theorem compactAll_append (nodes nodes' : List Node) :
    compactAll (nodes ++ nodes') = compactAll nodes ++ compactAll nodes' := by
  induction nodes with
  | nil => rfl
  | cons n nodes ih => rw [List.cons_append, compactAll, compactAll, ih, List.append_assoc]

/-- A flattened part of a stylesheet is the text of imports and of nodes
that `item` holds of, all of them readable. -/
def Settled (item : Node → Prop) (f : Flat) : Prop :=
  ∃ imports body : List Node, f.imports = imports.map compact ∧ f.body = compactAll body
    ∧ (∀ n ∈ imports, (∃ url media, n = .importUrl url media) ∧ AllReadable [n])
    ∧ ∀ n ∈ body, item n ∧ AllReadable [n]

namespace Settled

/-- The text of nodes. -/
theorem ofNodes {item : Node → Prop} {body : List Node}
    (h : ∀ n ∈ body, item n ∧ AllReadable [n]) : Settled item (.ofBody (compactAll body)) :=
  ⟨[], body, rfl, rfl, by simp, h⟩

/-- The text of one node. -/
theorem ofNode {item : Node → Prop} {n : Node} (h : item n) (hread : AllReadable [n]) :
    Settled item (.ofBody n.compact) := by
  have hn := ofNodes (List.forall_mem_singleton.mpr ⟨h, hread⟩)
  rwa [compactAll, compactAll, List.append_nil] at hn

/-- The text of none. -/
theorem empty {item : Node → Prop} : Settled item .empty :=
  ⟨[], [], rfl, rfl, by simp, by simp⟩

/-- One part after the other. Imports are gathered, so those of the second part
come before the body of the first. -/
theorem append {item : Node → Prop} {f g : Flat} (hf : Settled item f) (hg : Settled item g) :
    Settled item (f ++ g) := by
  obtain ⟨imports, body, himports, hbody, hi, hb⟩ := hf
  obtain ⟨imports', body', himports', hbody', hi', hb'⟩ := hg
  refine ⟨imports ++ imports', body ++ body', ?_, ?_, ?_, ?_⟩
  · show f.imports ++ g.imports = _
    rw [himports, himports', List.map_append]
  · show f.body ++ g.body = _
    rw [hbody, hbody', compactAll_append]
  · exact List.forall_mem_append.mpr ⟨hi, hi'⟩
  · exact List.forall_mem_append.mpr ⟨hb, hb'⟩

/-- More may be asked of the nodes than is needed. -/
theorem mono {item item' : Node → Prop} (h : ∀ n, item n → item' n) {f : Flat}
    (hf : Settled item f) : Settled item' f := by
  obtain ⟨imports, body, himports, hbody, hi, hb⟩ := hf
  exact ⟨imports, body, himports, hbody, hi, fun n hn => ⟨h n (hb n hn).1, (hb n hn).2⟩⟩

/-- An import, wherever it stands. -/
theorem ofImport {item : Node → Prop} {url media : Text} (h : AllReadable [.importUrl url media]) :
    Settled item ⟨[renderImport url media ++ [';']], [], []⟩ := by
  refine ⟨[.importUrl url media], [], rfl, rfl, ?_, by simp⟩
  rw [List.forall_mem_singleton]
  exact ⟨⟨url, media, rfl⟩, h⟩

/-- A wrapper around what is inside a grouping rule. -/
theorem wrap {skip : List Text} {header : Text} (hh : isGrouping skip header = true)
    (hclean : Text.IsClean header ∧ Text.beginsComment header = false) {f : Flat}
    (hf : Settled (IsFlat skip) f) (dropped : List Text) :
    Settled (IsFlat skip) ⟨f.imports, Node.block header f.body, dropped⟩ := by
  obtain ⟨imports, body, himports, hbody, hi, hb⟩ := hf
  refine ⟨imports, [.rule header body], himports, ?_, hi, ?_⟩
  · rw [hbody, compactAll, compactAll, compact, List.append_nil]
    rfl
  · rw [List.forall_mem_singleton]
    refine ⟨.wrapper hh fun n hn => (hb n hn).1, ?_⟩
    exact allReadable_rule.mpr ⟨hclean, allReadable_iff.mpr fun n hn => (hb n hn).2⟩

end Settled

/-- The selectors of the rule that a step enters, if it is no grouping
rule. -/
def Step.selectors (skip : List Text) : Step → List Text
  | ⟨around, .enter header _⟩ =>
    if isGrouping skip header then [] else selectorsOf skip around header
  | _ => []

/-- Of the rule that a step enters, the header can be composed with
others, and no selector of it is the header of a grouping rule. -/
def Step.Composes (skip : List Text) (s : Step) : Prop :=
  (∀ header ∈ s.header?, ∀ p ∈ pieces header, p.composes = true)
    ∧ ∀ selector ∈ s.selectors skip, isGrouping skip selector = false

/-- What is known of the selectors `outer` that are handed down to a
place below the headers `around`. -/
structure HandedDown (skip around outer : List Text) : Prop where
  eq_compose : outer = (selectorChain skip around).foldl Selector.compose []
  isSelector : ∀ a ∈ outer, Selector.IsSelector a

/-- At the top there are no selectors. -/
theorem handedDown_top (skip : List Text) : HandedDown skip [] [] :=
  ⟨rfl, by simp⟩

/-- Inside a grouping rule there are none either. -/
theorem handedDown_group {skip : List Text} (around : List Text) {header : Text}
    (hh : isGrouping skip header = true) : HandedDown skip (around ++ [header]) [] :=
  ⟨by rw [selectorChain_grouping around hh]; rfl, by simp⟩

/-- A rule hands down what its header makes of the selectors around it. -/
theorem HandedDown.rule {skip around outer : List Text} (h : HandedDown skip around outer)
    {header : Text} (hh : isGrouping skip header = false) (hheader : Selector.IsHeader header) :
    HandedDown skip (around ++ [header]) (Selector.compose outer header) := by
  refine ⟨?_, Selector.isSelector_compose h.isSelector hheader⟩
  rw [selectorChain_rule around hh, ← selectorsOf, selectorsOf_eq h.eq_compose]

/-- The blocks of a rule that is no grouping rule. -/
theorem settled_ownBlocks {skip around outer : List Text} (h : HandedDown skip around outer)
    {header : Text} {children : List Node} (hread : AllReadable [.rule header children])
    (hstep : Step.Composes skip ⟨around, .enter header children⟩)
    (hh : isGrouping skip header = false) :
    Settled (IsFlat skip) (.ofBody (ownBlocks outer header children)) := by
  obtain ⟨hclean, hchildren⟩ := allReadable_rule.mp hread
  have hown : ∀ n ∈ children.filter isOwn, n.isOwn = true := fun n hn => (List.mem_filter.mp hn).2
  have hread' : AllReadable (children.filter isOwn) :=
    allReadable_iff.mpr fun n hn => allReadable_iff.mp hchildren n (List.mem_filter.mp hn).1
  -- None of the selectors is taken for the header of a grouping rule.
  have hselectors : ∀ a ∈ Selector.compose outer header, isGrouping skip a = false := by
    have hsteps := hstep.2
    rwa [Step.selectors, hh, if_neg (by simp), selectorsOf_eq h.eq_compose] at hsteps
  unfold ownBlocks
  dsimp only
  split
  · exact .empty
  · split
    · -- Without selectors above it a rule keeps its header, branches or not.
      exact .ofNode (.block hh hown) (allReadable_rule.mpr ⟨hclean, hread'⟩)
    · rw [← compactAll_map_rule]
      refine .ofNodes fun n hn => ?_
      obtain ⟨a, ha, rfl⟩ := List.mem_map.mp hn
      have hselector := Selector.isSelector_compose h.isSelector ⟨hclean.1, hstep.1 header rfl⟩ a ha
      refine ⟨.block (hselectors a ha) hown, ?_⟩
      exact allReadable_rule.mpr ⟨⟨hselector.isClean, hselector.noComment⟩, hread'⟩

mutual

/-- A node inside rules. -/
theorem settled_nested {skip around outer : List Text} (h : HandedDown skip around outer) :
    (n : Node) → AllReadable [n] → (∀ s ∈ walk around n, s.Composes skip) →
      Settled (IsFlat skip) (flattenNested skip outer n)
  | importUrl url media, hread, _ => .ofImport hread
  | rule header children, hread, hsteps => by
      obtain ⟨hclean, hchildren⟩ := allReadable_rule.mp hread
      rw [walk, List.forall_mem_cons, List.forall_mem_append] at hsteps
      obtain ⟨hstep, hinside, -⟩ := hsteps
      rw [flattenNested]
      cases hh : isGrouping skip header with
      | true =>
          exact .wrap hh hclean
            (settled_group (handedDown_group around hh) children hchildren hinside) _
      | false =>
          have hheader : Selector.IsHeader header := ⟨hclean.1, hstep.1 header rfl⟩
          exact (settled_ownBlocks h hread hstep hh).append
            (settled_children (h.rule hh hheader) children hchildren hinside)
  | comment _, _, _ => .empty
  | declaration _ _, _, _ => .empty
  | statement _, _, _ => .empty

/-- The children of a rule that is no grouping rule. -/
theorem settled_children {skip around outer : List Text} (h : HandedDown skip around outer) :
    (nodes : List Node) → AllReadable nodes → (∀ s ∈ walkAll around nodes, s.Composes skip) →
      Settled (IsFlat skip) (flattenChildren skip outer nodes)
  | [], _, _ => .empty
  | n :: rest, hread, hsteps => by
      obtain ⟨hn, hrest⟩ := allReadable_cons.mp hread
      rw [walkAll, List.forall_mem_append] at hsteps
      exact (settled_nested h n hn hsteps.1).append (settled_children h rest hrest hsteps.2)

/-- The children of a grouping rule. -/
theorem settled_group {skip around : List Text} (h : HandedDown skip around []) :
    (nodes : List Node) → AllReadable nodes → (∀ s ∈ walkAll around nodes, s.Composes skip) →
      Settled (IsFlat skip) (flattenGroup skip nodes)
  | [], _, _ => .empty
  | n :: rest, hread, hsteps => by
      obtain ⟨hn, hrest⟩ := allReadable_cons.mp hread
      rw [walkAll, List.forall_mem_append] at hsteps
      rw [flattenGroup_cons]
      refine Settled.append ?_ (settled_group h rest hrest hsteps.2)
      cases n with
      | comment t => exact .ofNode (.comment t) hn
      | _ => exact settled_nested h _ hn hsteps.1

end

/-- A whole stylesheet. -/
theorem settled_flatten {skip : List Text} {nodes : List Node} (hread : AllReadable nodes)
    (hsteps : ∀ s ∈ walkAll [] nodes, s.Composes skip) :
    Settled (fun n => n.isOwn = true ∨ IsFlat skip n) (flatten skip nodes) := by
  induction nodes with
  | nil => exact .empty
  | cons n rest ih =>
      obtain ⟨hn, hrest⟩ := allReadable_cons.mp hread
      rw [walkAll, List.forall_mem_append] at hsteps
      rw [flatten]
      refine Settled.append ?_ (ih hrest hsteps.2)
      split
      · rename_i hown
        exact .ofNode (.inl hown) hn
      · exact (settled_nested (handedDown_top skip) n hn hsteps.1).mono fun _ => .inr

/-! ### Flattening again -/

/-- Texts of nodes one after the other are the text of the nodes. -/
theorem flatten_map_compact (nodes : List Node) :
    (nodes.map compact).flatten = compactAll nodes := by
  induction nodes with
  | nil => rfl
  | cons n nodes ih => rw [List.map_cons, List.flatten_cons, ih, compactAll]

/-- A comment begins with a slash. -/
theorem slash_mem_of_comment {t inside : Text} (h : Piece.comment inside ∈ pieces t) : '/' ∈ t := by
  fun_induction pieces t with
  | case1 => cases h
  | case2 c r p rest htake ih =>
      rcases List.mem_cons.mp h with rfl | h
      · rcases Literal.take?_cases htake with ⟨q, r', -, -, hp, -⟩ | ⟨r', heq, -⟩
        · cases hp
        · rw [heq]
          exact List.mem_cons_self
      · rw [← Literal.text_append_of_take? htake]
        exact List.mem_append_right _ (ih h)
  | case3 c r htake ih =>
      rcases List.mem_cons.mp h with h | h
      · cases h
      · exact List.mem_cons_of_mem _ (ih h)

/-- Without slashes, and without ampersands in strings, headers can be
composed. -/
theorem composes_of_not_mem {header : Text} (hslash : '/' ∉ header)
    (hamp : ∀ t, Piece.string t ∈ pieces header → '&' ∉ t) :
    ∀ p ∈ pieces header, p.composes = true := by
  intro p hp
  cases p with
  | plain c =>
      have hc : c ∈ textOf (pieces header) :=
        List.mem_flatMap.mpr ⟨_, hp, List.mem_singleton_self c⟩
      rw [text_pieces] at hc
      have hne : c ≠ '/' := fun h => hslash (h ▸ hc)
      simpa [Piece.composes] using hne
  | string t => simpa [Piece.composes] using hamp t hp
  | comment t => exact absurd (slash_mem_of_comment hp) hslash

/-- The selectors of all rules of a forest that are no grouping rules. -/
def selectors (skip : List Text) (nodes : List Node) : List Text :=
  (walkAll [] nodes).flatMap (Step.selectors skip)

/-- **Flattening is stable.** Reading a flattened stylesheet and flattening it
once more gives the same text. A slash in a header could make a comment with
what it is put before, an `&` in a string would be replaced like any other, and
a composed selector could be the header of a grouping rule: then the second
time something else would be flattened. -/
theorem flatten_render_stable (skip : List Text) (nodes : List Node) (hread : AllReadable nodes)
    (hslash : ∀ header ∈ headers nodes, '/' ∉ header)
    (hamp : ∀ header ∈ headers nodes, ∀ t, Piece.string t ∈ pieces header → '&' ∉ t)
    (hskip : ∀ selector ∈ selectors skip nodes, isGrouping skip selector = false) :
    (parse (flatten skip nodes).render).map (fun again => (flatten skip again).render)
      = .ok (flatten skip nodes).render := by
  have hsteps : ∀ s ∈ walkAll [] nodes, s.Composes skip := by
    intro s hs
    refine ⟨fun header hheader => ?_, fun a ha => hskip a (List.mem_flatMap.mpr ⟨s, hs, ha⟩)⟩
    have hmem : header ∈ headers nodes := List.mem_filterMap.mpr ⟨s, hs, hheader⟩
    exact composes_of_not_mem (hslash header hmem) (hamp header hmem)
  obtain ⟨imports, body, himports, hbody, hi, hb⟩ := settled_flatten hread hsteps
  -- The text is that of readable nodes, so these are read back, and they are flat already.
  have htext : (flatten skip nodes).render = compactAll (imports ++ body) := by
    rw [Flat.render, himports, hbody, flatten_map_compact, compactAll_append]
  have hall : AllReadable (imports ++ body) := by
    rw [allReadable_iff, List.forall_mem_append]
    exact ⟨fun n hn => (hi n hn).2, fun n hn => (hb n hn).2⟩
  have hagain : (flatten skip (imports ++ body)).render = compactAll (imports ++ body) := by
    rw [flatten_flat (fun n hn => (hi n hn).1) fun n hn => (hb n hn).1, Flat.render,
      flatten_map_compact, compactAll_append]
  rw [htext, (readsAs_compactAll _ hall).parse_eq]
  exact congrArg Except.ok hagain

/-- Commas in brackets and strings, `&` in brackets, a grouping rule below
branches with an import above it, and a header without branches. -/
def layered : List Node :=
  [.rule ".a, b[title=\"x, \x7d\"]".toList
     [.declaration "color".toList "red".toList, .importUrl "deep.css".toList "print".toList,
      .rule "&:hover, > i:not(& u, p)".toList
        [.comment "/*h*/".toList, .statement "@extend .z".toList],
      .rule "@media print".toList
        [.comment "/*p*/".toList, .declaration "left".toList "0".toList,
         .rule "u".toList [.rule "& &".toList []]]],
   .rule ", ,".toList [.rule "em".toList [.declaration "top".toList "0".toList]],
   .declaration "x".toList "y".toList]

/-- The forest meets the conditions and is flattened once and for all. -/
theorem flatten_layered :
    AllReadable layered ∧ (∀ header ∈ headers layered, '/' ∉ header)
      ∧ (∀ header ∈ headers layered, ∀ t, Piece.string t ∈ pieces header → '&' ∉ t)
      ∧ (∀ selector ∈ selectors defaultSkip layered, isGrouping defaultSkip selector = false)
      ∧ (parse (flatten defaultSkip layered).render).map
          (fun again => (flatten defaultSkip again).render)
        = .ok (flatten defaultSkip layered).render := by
  have hread : AllReadable layered := by decide +kernel
  have hslash : ∀ header ∈ headers layered, '/' ∉ header := by decide +kernel
  have hcomposes : ∀ header ∈ headers layered, ∀ p ∈ pieces header, p.composes = true := by
    decide +kernel
  have hamp : ∀ header ∈ headers layered, ∀ t, Piece.string t ∈ pieces header → '&' ∉ t := by
    intro header hheader t ht
    simpa [Piece.composes] using hcomposes header hheader _ ht
  have hskip : ∀ selector ∈ selectors defaultSkip layered,
      isGrouping defaultSkip selector = false := by
    decide +kernel
  exact ⟨hread, hslash, hamp, hskip,
    flatten_render_stable defaultSkip layered hread hslash hamp hskip⟩

end Node

end Stylesheet
