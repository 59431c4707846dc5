import Mathlib.Data.List.DropRight
import Stylesheet.Config.Basic
import Stylesheet.Node.Flat

/-!
# What flattening writes

`Node.flatten` hands selectors down from rule to rule and gathers text on
the way. This file says what comes out of it without either: `walkAll`
goes once through a forest, in document order, and every step of the walk
knows the headers of the rules around it. What a step contributes to the
result depends on that step alone:

* a rule that has items of its own, or no rule inside it, writes its
  blocks when it is entered (`blocksOf`). The selectors are the headers
  below the nearest grouping rule (`selectorChain`), composed one after
  the other;
* a grouping rule opens its wrapper when it is entered and closes it when
  it is left;
* an import goes to the imports and nowhere else;
* any other item is written where it stands if that is the top. Directly
  inside a grouping rule only comments are written, and inside any other
  rule nothing is, because the blocks of that rule hold its items.

`flatten_eq_ofSteps`: the flattened stylesheet is what the steps of the
walk contribute, one after the other. The headers must have a branch that
is not empty. Below a header without one the list of selectors is empty,
and an empty list is how `flatten` tells the top.
-/

set_option autoImplicit false

namespace Stylesheet

namespace Node

/-! ### Walking through a forest -/

/-- What a walk through a forest does at a step. -/
inductive Visit where
  /-- Comes to a rule, before what is inside it. -/
  | enter (header : Text) (children : List Node)
  /-- Leaves a rule, behind what is inside it. -/
  | leave (header : Text) (children : List Node)
  /-- Passes a node without a block. -/
  | pass (n : Node)

/-- A step of a walk, with the headers of the rules around it, outermost
first. -/
structure Step where
  around : List Text
  visit : Visit

mutual

/-- The walk through a node. -/
def walk (around : List Text) : Node → List Step
  | rule header children =>
    ⟨around, .enter header children⟩
      :: (walkAll (around ++ [header]) children ++ [⟨around, .leave header children⟩])
  | n => [⟨around, .pass n⟩]

/-- The walk through some nodes, in their order. -/
def walkAll (around : List Text) : List Node → List Step
  | [] => []
  | n :: rest => walk around n ++ walkAll around rest

end

/-- The header of the rule that a step enters. -/
def Step.header? : Step → Option Text
  | ⟨_, .enter header _⟩ => some header
  | _ => none

/-- The headers of all rules of a forest. -/
def headers (nodes : List Node) : List Text := (walkAll [] nodes).filterMap Step.header?

/-! ### What a step contributes -/

/-- The headers that selectors are composed from: those below the nearest
grouping rule. -/
def selectorChain (skip around : List Text) : List Text :=
  around.rtakeWhile (!isGrouping skip ·)

/-- The selectors of a rule below the headers `around`. -/
def selectorsOf (skip around : List Text) (header : Text) : List Text :=
  (selectorChain skip around ++ [header]).foldl Selector.compose []

/-- The blocks of a rule that is no grouping rule. -/
def blocksOf (skip around : List Text) (header : Text) (children : List Node) : List Node :=
  let own := children.filter isOwn
  if own = [] ∧ children.any isRule then []
  else if selectorChain skip around = [] then [rule header own]
  else (selectorsOf skip around header).map fun selector => rule selector own

/-- Whether a node is a comment. -/
def isComment : Node → Bool
  | comment _ => true
  | _ => false

/-- What a step adds to the body. -/
def Step.body (skip : List Text) : Step → Text
  | ⟨around, .enter header children⟩ =>
    if isGrouping skip header then header ++ ['{']
    else compactAll (blocksOf skip around header children)
  | ⟨_, .leave header _⟩ => if isGrouping skip header then ['}'] else []
  | ⟨around, .pass n⟩ =>
    match around.getLast? with
    | none => if n.isOwn then n.compact else []
    | some header => if isGrouping skip header && n.isComment then n.compact else []

/-- The import that a step passes, as written. -/
def Step.import? : Step → Option Text
  | ⟨_, .pass (importUrl url media)⟩ => some (importUrl url media).compact
  | _ => none

/-- The header of a grouping rule that a step leaves, if declarations or
statements stand directly inside it. -/
def Step.dropped? (skip : List Text) : Step → Option Text
  | ⟨_, .leave header children⟩ =>
    if isGrouping skip header && children.any needsSelector then some header else none
  | _ => none

/-- What the steps of a walk contribute, one after the other. -/
def ofSteps (skip : List Text) (steps : List Step) : Flat where
  imports := steps.filterMap Step.import?
  body := steps.flatMap (Step.body skip)
  dropped := steps.filterMap (Step.dropped? skip)

/-! ### Gathering contributions -/

/-- The contributions of two walks. -/
theorem ofSteps_append (skip : List Text) (front back : List Step) :
    ofSteps skip (front ++ back) = ofSteps skip front ++ ofSteps skip back := by
  show ofSteps skip (front ++ back) = Flat.append (ofSteps skip front) (ofSteps skip back)
  simp [ofSteps, Flat.append, List.filterMap_append, List.flatMap_append]

/-- One step and then the others. -/
theorem ofSteps_cons (skip : List Text) (s : Step) (steps : List Step) :
    ofSteps skip (s :: steps) = ofSteps skip [s] ++ ofSteps skip steps :=
  ofSteps_append skip [s] steps

/-- A node without a block is passed. -/
theorem walk_eq_pass (around : List Text) {n : Node} (h : n.isRule = false) :
    walk around n = [⟨around, .pass n⟩] := by
  cases n with
  | rule header children => simp [isRule] at h
  | _ => rfl

/-- The items of a block are no rules. -/
theorem isRule_eq_false {n : Node} (h : n.isOwn = true) : n.isRule = false := by
  cases n <;> simp_all [isOwn, isRule]

/-- A comment is an item of its block. -/
theorem isComment_eq_false {n : Node} (h : n.isOwn = false) : n.isComment = false := by
  cases n <;> simp_all [isOwn, isComment]

/-- An item of a block gives nothing apart from it. -/
theorem flattenNested_own {skip outer : List Text} {n : Node} (h : n.isOwn = true) :
    flattenNested skip outer n = .empty := by
  cases n <;> simp_all [isOwn, flattenNested]

/-- The children of a grouping rule one by one. -/
theorem flattenGroup_cons (skip : List Text) (n : Node) (rest : List Node) :
    flattenGroup skip (n :: rest)
      = (if n.isComment then .ofBody n.compact else flattenNested skip [] n)
        ++ flattenGroup skip rest := by
  cases n <;> rfl

/-- An item between other nodes of a rule that is no grouping rule
contributes nothing: it is part of the block of that rule. -/
theorem ofSteps_pass_own {skip around : List Text} {header : Text} {n : Node}
    (hlast : around.getLast? = some header) (hh : isGrouping skip header = false)
    (hown : n.isOwn = true) : ofSteps skip [⟨around, .pass n⟩] = .empty := by
  cases n <;> simp_all [isOwn, ofSteps, Step.import?, Step.body, Step.dropped?, Flat.empty]

/-- Directly inside a grouping rule a comment is kept and everything else
that has no block is lost. -/
theorem ofSteps_pass_group {skip around : List Text} {header : Text} {n : Node}
    (hlast : around.getLast? = some header) (hh : isGrouping skip header = true)
    (hown : n.isOwn = true) :
    (if n.isComment then Flat.ofBody n.compact else .empty)
      = ofSteps skip [⟨around, .pass n⟩] := by
  cases n <;> simp_all [isOwn, isComment, ofSteps, Step.import?, Step.body, Step.dropped?,
    Flat.empty, Flat.ofBody]

/-- At the top every item is written where it stands. -/
theorem ofSteps_pass_top {skip : List Text} {n : Node} (hown : n.isOwn = true) :
    Flat.ofBody n.compact = ofSteps skip [⟨[], .pass n⟩] := by
  cases n <;> simp_all [isOwn, ofSteps, Step.import?, Step.body, Step.dropped?, Flat.ofBody]

/-- An import goes to the imports, wherever it stands. -/
theorem ofSteps_pass_import (skip around : List Text) (url media : Text) :
    ofSteps skip [⟨around, .pass (importUrl url media)⟩]
      = ⟨[renderImport url media ++ [';']], [], []⟩ := by
  cases hlast : around.getLast? <;>
    simp [ofSteps, Step.import?, Step.body, Step.dropped?, hlast, isOwn, isComment, compact]

/-- A grouping rule puts one wrapper around what is inside it, and is
recorded behind it if something directly inside was dropped. -/
theorem wrapper_eq {skip : List Text} {header : Text} (hg : isGrouping skip header = true)
    (around : List Text) (children : List Node) (inner : Flat) :
    ({ imports := inner.imports
       body := block header inner.body
       dropped := inner.dropped ++ (if children.any needsSelector then [header] else []) } : Flat)
      = ofSteps skip [⟨around, .enter header children⟩]
        ++ (inner ++ ofSteps skip [⟨around, .leave header children⟩]) := by
  show _ = Flat.append _ (Flat.append inner _)
  cases hd : children.any needsSelector <;>
    simp [Flat.append, ofSteps, List.filterMap_cons, Step.import?, Step.body, Step.dropped?, hg, hd,
      block]

/-- Any other rule writes its blocks before what is inside it. -/
theorem blocks_eq {skip : List Text} {header : Text} (hg : isGrouping skip header = false)
    (around : List Text) (children : List Node) (inner : Flat) :
    Flat.ofBody (compactAll (blocksOf skip around header children)) ++ inner
      = ofSteps skip [⟨around, .enter header children⟩]
        ++ (inner ++ ofSteps skip [⟨around, .leave header children⟩]) := by
  show Flat.append _ inner = Flat.append _ (Flat.append inner _)
  simp [Flat.append, ofSteps, List.filterMap_cons, Step.import?, Step.body, Step.dropped?, hg,
    Flat.ofBody]

/-! ### The selectors handed down -/

/-- Below a grouping rule there is nothing to compose with. -/
theorem selectorChain_grouping {skip : List Text} (around : List Text) {header : Text}
    (hh : isGrouping skip header = true) : selectorChain skip (around ++ [header]) = [] := by
  rw [selectorChain, List.rtakeWhile_concat_neg]
  simp [hh]

/-- Below any other rule there is one header more. -/
theorem selectorChain_rule {skip : List Text} (around : List Text) {header : Text}
    (hh : isGrouping skip header = false) :
    selectorChain skip (around ++ [header]) = selectorChain skip around ++ [header] := by
  rw [selectorChain, List.rtakeWhile_concat_pos _ _ _ (by simp [hh])]
  rfl

/-- The invariant of the descent: `outer` are the selectors of the rules
around a place, and there are none only where no header is to be composed
with. -/
structure Reaches (skip outer around : List Text) : Prop where
  eq_compose : outer = (selectorChain skip around).foldl Selector.compose []
  chain_eq_nil : outer = [] → selectorChain skip around = []

/-- The selectors of a rule are composed from those handed down to it. -/
theorem selectorsOf_eq {skip outer around : List Text}
    (h : outer = (selectorChain skip around).foldl Selector.compose []) (header : Text) :
    selectorsOf skip around header = Selector.compose outer header := by
  rw [selectorsOf, List.foldl_append, ← h]
  rfl

/-- At the top there are no selectors, and no headers. -/
theorem reaches_top (skip : List Text) : Reaches skip [] [] :=
  ⟨rfl, fun _ => rfl⟩

/-- Inside a grouping rule everything starts afresh. -/
theorem reaches_group {skip : List Text} (around : List Text) {header : Text}
    (hh : isGrouping skip header = true) : Reaches skip [] (around ++ [header]) := by
  have hchain := selectorChain_grouping around hh
  exact ⟨by rw [hchain]; rfl, fun _ => hchain⟩

/-- A header with a branch makes a selector. -/
theorem compose_ne_nil {outer : List Text} {header : Text}
    (hb : Selector.branches header ≠ []) : Selector.compose outer header ≠ [] := by
  unfold Selector.compose
  cases outer with
  | nil => simpa using hb
  | cons a outer =>
      intro h
      simp [hb] at h

/-- One rule further down, the selectors are composed with one header
more. -/
theorem Reaches.rule {skip outer around : List Text} {header : Text}
    (h : Reaches skip outer around) (hh : isGrouping skip header = false)
    (hb : Selector.branches header ≠ []) :
    Reaches skip (Selector.compose outer header) (around ++ [header]) := by
  refine ⟨?_, fun hnil => absurd hnil (compose_ne_nil hb)⟩
  rw [selectorChain_rule around hh, ← selectorsOf, selectorsOf_eq h.eq_compose]

/-! ### The blocks of one rule -/

/-- The same block with each of the selectors. -/
theorem compactAll_map_rule (selectors : List Text) (own : List Node) :
    compactAll (selectors.map fun selector => rule selector own)
      = selectors.flatMap fun selector => block selector (compactAll own) := by
  induction selectors with
  | nil => rfl
  | cons a selectors ih =>
      rw [List.map_cons, List.flatMap_cons, compactAll, ih, compact]
      rfl

/-- The blocks that are written with the selectors handed down are those
that the headers around the rule ask for. -/
theorem ownBlocks_eq {skip outer around : List Text} (h : Reaches skip outer around)
    (header : Text) (children : List Node) :
    ownBlocks outer header children = compactAll (blocksOf skip around header children) := by
  have hselectors := selectorsOf_eq h.eq_compose header
  simp only [ownBlocks, blocksOf, Bool.and_eq_true, List.isEmpty_iff]
  split
  · rfl
  · by_cases hnil : outer = []
    · rw [if_pos hnil, if_pos (h.chain_eq_nil hnil), compactAll, compactAll, compact,
        List.append_nil]
      rfl
    · have hchain : selectorChain skip around ≠ [] := by
        intro hc
        exact hnil (by rw [h.eq_compose, hc]; rfl)
      rw [if_neg hnil, if_neg hchain, compactAll_map_rule, hselectors]

/-! ### The descent -/

/-- Every header of the steps has a branch that is not empty. -/
def Branching (steps : List Step) : Prop :=
  ∀ header ∈ steps.filterMap Step.header?, Selector.branches header ≠ []

/-- A part at the front. -/
theorem Branching.left {front back : List Step} (h : Branching (front ++ back)) :
    Branching front := by
  intro header hm
  exact h header (by rw [List.filterMap_append]; exact List.mem_append_left _ hm)

/-- A part at the end. -/
theorem Branching.right {front back : List Step} (h : Branching (front ++ back)) :
    Branching back := by
  intro header hm
  exact h header (by rw [List.filterMap_append]; exact List.mem_append_right _ hm)

/-- A rule and what is inside it. -/
theorem Branching.rule {around : List Text} {header : Text} {children : List Node}
    (h : Branching (walk around (rule header children))) :
    Selector.branches header ≠ [] ∧ Branching (walkAll (around ++ [header]) children) := by
  rw [walk, ← List.singleton_append] at h
  exact ⟨h.left header (by simp [Step.header?]), h.right.left⟩

mutual

/-- A node that does not belong to the block of the rule it is in. -/
theorem flattenNested_eq {skip outer around : List Text} (h : Reaches skip outer around) :
    (n : Node) → n.isOwn = false → Branching (walk around n) →
      flattenNested skip outer n = ofSteps skip (walk around n)
  | importUrl url media, _, _ => by
      rw [walk_eq_pass around rfl, ofSteps_pass_import]
      rfl
  | rule header children, _, hb => by
      obtain ⟨hheader, hchildren⟩ := hb.rule
      rw [walk, ofSteps_cons, ofSteps_append, flattenNested]
      cases hg : isGrouping skip header with
      | true =>
          -- Inside the wrapper no selectors are handed down.
          have hlast : (around ++ [header]).getLast? = some header := by simp
          rw [flattenGroup_eq (reaches_group around hg) hlast hg children hchildren]
          exact wrapper_eq hg around children _
      | false =>
          have hlast : (around ++ [header]).getLast? = some header := by simp
          rw [flattenChildren_eq (h.rule hg hheader) hlast hg children hchildren,
            ownBlocks_eq h]
          exact blocks_eq hg around children _
  | comment _, hown, _ => by simp [isOwn] at hown
  | declaration _ _, hown, _ => by simp [isOwn] at hown
  | statement _, hown, _ => by simp [isOwn] at hown

/-- The children of a rule that is no grouping rule. Its own items are
passed in silence. -/
theorem flattenChildren_eq {skip outer around : List Text} {header : Text}
    (h : Reaches skip outer around) (hlast : around.getLast? = some header)
    (hh : isGrouping skip header = false) :
    (nodes : List Node) → Branching (walkAll around nodes) →
      flattenChildren skip outer nodes = ofSteps skip (walkAll around nodes)
  | [], _ => rfl
  | n :: rest, hb => by
      rw [walkAll] at hb ⊢
      rw [flattenChildren, ofSteps_append, flattenChildren_eq h hlast hh rest hb.right]
      cases hown : n.isOwn with
      | false => rw [flattenNested_eq h n hown hb.left]
      | true =>
          -- The item is in the block of the rule, which was written before.
          rw [walk_eq_pass around (isRule_eq_false hown), ofSteps_pass_own hlast hh hown,
            flattenNested_own hown]

/-- The children of a grouping rule: of its own items only comments are
kept. -/
theorem flattenGroup_eq {skip around : List Text} {header : Text}
    (h : Reaches skip [] around) (hlast : around.getLast? = some header)
    (hh : isGrouping skip header = true) :
    (nodes : List Node) → Branching (walkAll around nodes) →
      flattenGroup skip nodes = ofSteps skip (walkAll around nodes)
  | [], _ => rfl
  | n :: rest, hb => by
      rw [walkAll] at hb ⊢
      rw [flattenGroup_cons, ofSteps_append, flattenGroup_eq h hlast hh rest hb.right]
      cases hown : n.isOwn with
      | false =>
          rw [flattenNested_eq h n hown hb.left, if_neg (by simp [isComment_eq_false hown])]
      | true =>
          rw [walk_eq_pass around (isRule_eq_false hown), flattenNested_own hown,
            ofSteps_pass_group hlast hh hown]

end

/-- **Flattening writes the contributions of a walk.** The imports, the body
and the dropped headers of a flattened stylesheet are what the steps of the
walk through it add, in document order. A header without branches is left out:
it would hand down no selectors, and the rules inside would be taken for rules
at the top. -/
theorem flatten_eq_ofSteps (skip : List Text) (nodes : List Node)
    (hb : ∀ header ∈ headers nodes, Selector.branches header ≠ []) :
    flatten skip nodes = ofSteps skip (walkAll [] nodes) := by
  replace hb : Branching (walkAll [] nodes) := hb
  induction nodes with
  | nil => rfl
  | cons n rest ih =>
      rw [walkAll] at hb ⊢
      rw [flatten, ofSteps_append, ih hb.right]
      cases hown : n.isOwn with
      | false =>
          rw [if_neg (by simp), flattenNested_eq (reaches_top skip) n hown hb.left]
      | true =>
          rw [if_pos rfl, walk_eq_pass [] (isRule_eq_false hown), ofSteps_pass_top hown]

/-- A stylesheet with rules in rules, branches, and a grouping rule that
stands inside a selector and holds rules, a comment, an import and a
declaration. -/
def navigation : List Node :=
  [.comment "/*n*/".toList,
   .rule ".nav".toList
     [.declaration "color".toList "red".toList,
      .rule "a, i".toList
        [.rule "&:hover".toList [.declaration "top".toList "0".toList, .statement "@x".toList]],
      .rule "@media print".toList
        [.comment "/*p*/".toList, .declaration "left".toList "0".toList,
         .rule "b".toList [.importUrl "p.css".toList [], .rule "u".toList []]]]]

/-- The forest is flattened as its walk says. -/
theorem flatten_navigation :
    (∀ header ∈ headers navigation, Selector.branches header ≠ [])
      ∧ flatten defaultSkip navigation = ofSteps defaultSkip (walkAll [] navigation)
      ∧ (flatten defaultSkip navigation).render
          = ("@import 'p.css';/*n*/.nav\x7bcolor:red;\x7d.nav a:hover\x7btop:0;@x;\x7d"
              ++ ".nav i:hover\x7btop:0;@x;\x7d@media print\x7b/*p*/b u\x7b\x7d\x7d").toList
      ∧ (flatten defaultSkip navigation).dropped = ["@media print".toList] := by
  have hb : ∀ header ∈ headers navigation, Selector.branches header ≠ [] := by decide +kernel
  exact ⟨hb, flatten_eq_ofSteps defaultSkip navigation hb, by decide +kernel, by decide +kernel⟩

end Node

end Stylesheet
