import Stylesheet.Compilation
import Stylesheet.Flag
import Stylesheet.Proofs.Unquoted

/-!
# Flag blocks mean what their nesting says

`resolveFlags` works in rounds. Each round looks at the whole text,
replaces the outermost flag blocks by their bodies or by nothing, and
starts over with what that gives. The meaning of nested blocks is told
without rounds: a piece of text survives when every block around it lists
an active flag. `resolveFlags_survivors` says that the two agree.

A text that is made of pieces and blocks is given as a `Template`. A round
takes the outermost blocks of a template off (`unwrapped`) and leaves a
template, so what holds of all rounds is shown of one (`exists_cut`):
the search finds the outermost blocks and no others, and the surviving
pieces are the same as before.
-/

set_option autoImplicit false

namespace Stylesheet

open Text

namespace Flag

/-- Some flag of a list of names is active. -/
def Lists (active : List Text) (names : Text) : Prop :=
  ∃ name ∈ splitWhere (· == ',') names, trim name ∈ active

instance (active : List Text) (names : Text) : Decidable (Lists active names) :=
  inferInstanceAs (Decidable (∃ name ∈ splitWhere (· == ',') names, trim name ∈ active))

/-- The search for an active flag finds out whether there is one. -/
theorem anyActive_eq (active : List Text) (names : Text) :
    anyActive active names = decide (Lists active names) := by
  rw [Bool.eq_iff_iff, decide_eq_true_iff]
  simp [anyActive, Lists]

/-! ### Headers -/

/-- The header of a block, as it is written. -/
def headerOf (names : Text) : Text := "@flag(".toList ++ (names ++ [')'])

/-- The header as a list of characters, for rewriting. -/
theorem headerOf_eq (names : Text) :
    headerOf names = '@' :: 'f' :: 'l' :: 'a' :: 'g' :: '(' :: (names ++ [')']) := by
  have hopening : "@flag(".toList = ['@', 'f', 'l', 'a', 'g', '('] := by decide +kernel
  unfold headerOf
  rw [hopening]
  rfl

/-- The keyword as a list of characters. -/
theorem keyword_chars : "@flag".toList = ['@', 'f', 'l', 'a', 'g'] := by decide +kernel

/-- A header begins with `@`. -/
theorem header_cons {c : Char} (hc : c ≠ '@') (r : Text) : header (c :: r) = none := by
  rw [header, keyword_chars]
  simp [after?, hc]

/-- The header of a block is found where it is written. The names may be
anything up to the parenthesis. -/
theorem header_headerOf {names : Text} (hnames : ')' ∉ names) (rest : Text) :
    header (headerOf names ++ rest) = some ⟨(headerOf names).length, [some names]⟩ := by
  have htake : (names ++ ')' :: rest).takeWhile (· != ')') = names := by
    rw [List.takeWhile_append_of_pos]
    · simp
    · intro c hc
      simpa using fun h : c = ')' => hnames (h ▸ hc)
  have hblank : isBlank '(' = false := by decide
  rw [header, keyword_chars, headerOf_eq]
  simp [after?, hblank, htake]
  omega

/-! ### Templates -/

/-- A text made of pieces and flag blocks, which hold templates again. -/
inductive Template where
  | done
  | text (t : Text) (rest : Template)
  | block (names : Text) (body rest : Template)

namespace Template

/-- The template as it is written. -/
def write : Template → Text
  | done => []
  | text t rest => t ++ rest.write
  | block names body rest =>
    headerOf names ++ '{' :: (body.write ++ '}' :: rest.write)

/-- Pieces of text have no `@`, no quotes and no slashes, names moreover
no braces and no closing parenthesis, and bodies are balanced. -/
def WellFormed : Template → Prop
  | done => True
  | text t rest => FreeOf ('@' :: literalMarks) t ∧ rest.WellFormed
  | block names body rest =>
    FreeOf (')' :: '{' :: '}' :: '@' :: literalMarks) names ∧ Balanced body.write
      ∧ body.WellFormed ∧ rest.WellFormed

instance decidableWellFormed : (T : Template) → Decidable T.WellFormed
  | done => inferInstanceAs (Decidable True)
  | text t rest =>
    have := decidableWellFormed rest
    inferInstanceAs (Decidable (FreeOf ('@' :: literalMarks) t ∧ rest.WellFormed))
  | block names body rest =>
    have := decidableWellFormed body
    have := decidableWellFormed rest
    inferInstanceAs (Decidable (FreeOf (')' :: '{' :: '}' :: '@' :: literalMarks) names
      ∧ Balanced body.write ∧ body.WellFormed ∧ rest.WellFormed))

/-- The pieces of text in order, each with the lists of names of the
blocks around it. -/
def piecesIn (around : List Text) : Template → List (List Text × Text)
  | done => []
  | text t rest => (around, t) :: rest.piecesIn around
  | block names body rest => body.piecesIn (names :: around) ++ rest.piecesIn around

/-- The text of the pieces around which `keep` holds of every block. -/
def survivors (keep : Text → Bool) (T : Template) : Text :=
  ((T.piecesIn []).filter fun piece => piece.1.all keep).flatMap Prod.snd

/-- One template behind another. -/
def append : Template → Template → Template
  | done, T => T
  | text t rest, T => text t (rest.append T)
  | block names body rest, T => block names body (rest.append T)

/-- The template without its outermost blocks: in their place stand the
bodies of those that `keep` holds of. -/
def unwrapped (keep : Text → Bool) : Template → Template
  | done => done
  | text t rest => text t (rest.unwrapped keep)
  | block names body rest =>
    if keep names then body.append (rest.unwrapped keep) else rest.unwrapped keep

/-- Writing two templates. -/
@[simp] theorem write_append (T U : Template) : (T.append U).write = T.write ++ U.write := by
  induction T with
  | done => rfl
  | text t rest ih => simp [append, write, ih]
  | block names body rest _ ih => simp [append, write, ih]

/-- Well formed templates, one after the other. -/
theorem WellFormed.append {T U : Template} (hT : T.WellFormed) (hU : U.WellFormed) :
    (T.append U).WellFormed := by
  induction T with
  | done => exact hU
  | text t rest ih => exact ⟨hT.1, ih hT.2⟩
  | block names body rest _ ih => exact ⟨hT.1, hT.2.1, hT.2.2.1, ih hT.2.2.2⟩

/-- Taking blocks off does not open any new ones. -/
theorem WellFormed.unwrapped {T : Template} (hT : T.WellFormed) (keep : Text → Bool) :
    (T.unwrapped keep).WellFormed := by
  induction T with
  | done => exact hT
  | text t rest ih => exact ⟨hT.1, ih hT.2⟩
  | block names body rest _ ih =>
      obtain ⟨-, -, hbody, hrest⟩ := hT
      rw [Template.unwrapped]
      split
      · exact hbody.append (ih hrest)
      · exact ih hrest

/-- Nothing in a well formed template begins a literal. -/
theorem WellFormed.freeOf {T : Template} (hT : T.WellFormed) : FreeOf literalMarks T.write := by
  induction T with
  | done => exact freeOf_nil _
  | text t rest ih =>
      exact freeOf_append.mpr ⟨hT.1.mono (List.subset_cons_self _ _), ih hT.2⟩
  | block names body rest ihbody ihrest =>
      obtain ⟨hnames, -, hbody, hrest⟩ := hT
      have hnames' : FreeOf literalMarks names := hnames.mono fun c hc => by simp [hc]
      have hheader : FreeOf literalMarks (headerOf names) := by
        rw [headerOf_eq]
        simp only [freeOf_cons, freeOf_append, freeOf_nil, hnames', and_true, true_and]
        decide
      simp only [write, freeOf_append, freeOf_cons]
      exact ⟨hheader, by decide, ihbody hbody, by decide, ihrest hrest⟩

/-! ### What survives -/

section

variable (keep : Text → Bool)

/-- What is left when the blocks that are not kept are taken out. -/
def kept : Template → Text
  | done => []
  | text t rest => t ++ rest.kept
  | block names body rest => (if keep names then body.kept else []) ++ rest.kept

/-- Where every block around a template is kept, the surviving pieces are
what is left of it. Elsewhere no piece survives. -/
theorem survivors_piecesIn (around : List Text) (T : Template) :
    ((T.piecesIn around).filter fun piece => piece.1.all keep).flatMap Prod.snd
      = if around.all keep then T.kept keep else [] := by
  induction T generalizing around with
  | done => simp [piecesIn, kept]
  | text t rest ih =>
      rw [piecesIn, List.filter_cons]
      by_cases h : around.all keep = true
      · simp [h, ih, kept]
      · simp [h, ih]
  | block names body rest ihbody ihrest =>
      rw [piecesIn, List.filter_append, List.flatMap_append, ihbody, ihrest, List.all_cons]
      by_cases h : around.all keep = true
      · simp [h, kept]
      · simp [h]

/-- What is left, told in two ways. -/
theorem survivors_eq_kept (T : Template) : T.survivors keep = T.kept keep :=
  survivors_piecesIn keep [] T

/-- What is left of two templates. -/
theorem kept_append (T U : Template) : (T.append U).kept keep = T.kept keep ++ U.kept keep := by
  induction T with
  | done => rfl
  | text t rest ih => simp [append, kept, ih]
  | block names body rest _ ih => simp [append, kept, ih]

/-- One round changes nothing about what is left in the end. -/
theorem kept_unwrapped (T : Template) : (T.unwrapped keep).kept keep = T.kept keep := by
  induction T with
  | done => rfl
  | text t rest ih => simp [unwrapped, kept, ih]
  | block names body rest _ ih =>
      by_cases h : keep names = true
      · simp [unwrapped, kept, h, kept_append, ih]
      · simp [unwrapped, kept, h, ih]

end

/-! ### Rounds -/

/-- One round: the search finds the outermost blocks of a template, and
choosing for each of them takes it off. If there is none, all is text. -/
theorem exists_cut (active : List Text) {T : Template} (hT : T.WellFormed) (behind : Text) :
    ∃ cut, Block.cutFrom search [] behind T.write = .ok cut
      ∧ cut.fill (choose active) = (T.unwrapped (anyActive active)).write
      ∧ (cut.items = [] → T.write = T.kept (anyActive active)) := by
  induction T generalizing behind with
  | done =>
      refine ⟨.whole [], Block.cutFrom_nil ?_, by simp [unwrapped, write], fun _ => rfl⟩
      simp [search, header, keyword_chars, after?]
  | text t rest ih =>
      obtain ⟨cut, hcut, hfill, hitems⟩ := ih hT.2 (t.reverse ++ behind)
      refine ⟨cut.prepend t, Block.cutFrom_text ?_ hcut, ?_, ?_⟩
      · intro c hc r
        refine header_cons ?_ r
        rintro rfl
        exact hT.1 _ hc (by simp)
      · rw [Cut.fill_prepend, hfill]
        rfl
      · intro hnone
        rw [Cut.items_prepend] at hnone
        simp [write, kept, hitems hnone]
  | block names body rest _ ih =>
      obtain ⟨hnames, hbalanced, hbody, hrest⟩ := hT
      have hparen : ')' ∉ names := fun hmem => hnames _ hmem (by simp)
      obtain ⟨cut, hcut, hfill, -⟩ :=
        ih hrest ((headerOf names ++ '{' :: (body.write ++ ['}'])).reverse ++ behind)
      have hpattern : search.pattern (headerOf names ++ '{' :: (body.write ++ '}' :: rest.write))
          = some ⟨(headerOf names).length, [some names]⟩ :=
        header_headerOf hparen _
      obtain ⟨b, hgroups, hbbody, hb⟩ :=
        Block.cutFrom_block rfl rfl hpattern hbalanced hbody.freeOf hrest.freeOf hcut
      -- With a block found, nothing is claimed about the text being left as it is.
      refine ⟨cut.item b, hb, ?_, by simp⟩
      have hgroup : b.groupText 1 = names := by simp [Block.groupText, Block.group, hgroups]
      rw [Cut.fill_item, hfill, choose, hgroup, hbbody, unwrapped]
      split <;> simp

/-- All rounds. The measure is the length of the text, which is the one
that the rounds end by. -/
theorem resolveFlags_eq_kept (active : List Text) {T : Template} (hT : T.WellFormed) :
    resolveFlags active T.write = .ok (T.kept (anyActive active)) := by
  obtain ⟨cut, hcut, hfill, hitems⟩ := exists_cut active hT []
  have hcut' : Block.cut search T.write = .ok cut := (Block.cut_of_freeOf hT.freeOf).trans hcut
  rw [resolveFlags]
  split
  · simp_all
  · rename_i cut' h
    obtain rfl : cut = cut' := by simpa [hcut'] using h
    split
    · rename_i hnone
      rw [hitems hnone]
    · rename_i hsome
      -- The text of the next round is shorter, because bodies are shorter than blocks.
      have hshorter : (T.unwrapped (anyActive active)).write.length < T.write.length := by
        rw [← hfill, ← Block.fill_full_of_cut hcut']
        exact Cut.length_fill_lt (fun b hb =>
          length_choose_lt (Block.length_body_lt_full_of_cutFrom hcut' b hb)) hsome
      rw [hfill, resolveFlags_eq_kept active (hT.unwrapped _), kept_unwrapped]
termination_by T.write.length

end Template

end Flag

/-- With flags disabled, none is ever active. -/
theorem State.flags_of_disabled {config : Config} (h : config.disableFlags = true) (text : Text)
    (activated : List Text) :
    (activated.foldl (State.activateFlag config) (State.start config text)).flags = [] := by
  have hkeep : State.activateFlag config = fun s _ => s := by
    funext s name
    simp [State.activateFlag, h]
  rw [hkeep]
  induction activated with
  | nil => simp [State.start, h]
  | cons name activated ih => exact ih

namespace Flag

/-- Resolving the flag blocks of a template leaves the pieces of text
around which every block lists an active flag, in their order. With flags
disabled these are the pieces outside all blocks, whatever was configured
and whatever was activated since. -/
theorem resolveFlags_survivors {T : Template} (hT : T.WellFormed) :
    (∀ active : List Text,
      resolveFlags active T.write = .ok (T.survivors fun names => decide (Lists active names)))
    ∧ ∀ (config : Config) (activated : List Text), config.disableFlags = true →
      resolveFlags (activated.foldl (State.activateFlag config) (State.start config T.write)).flags
          T.write
        = .ok (((T.piecesIn []).filter fun piece => piece.1.isEmpty).flatMap Prod.snd) := by
  have hresolve : ∀ active : List Text,
      resolveFlags active T.write = .ok (T.survivors fun names => decide (Lists active names)) := by
    intro active
    rw [Template.resolveFlags_eq_kept active hT, Template.survivors_eq_kept]
    congr 2
    funext names
    exact anyActive_eq active names
  refine ⟨hresolve, ?_⟩
  intro config activated hdisabled
  rw [State.flags_of_disabled hdisabled, hresolve, Template.survivors]
  congr 3
  funext piece
  -- Without active flags no list has one, so only pieces without a block around them are left.
  have hnone : ∀ names, decide (Lists [] names) = false := by simp [Lists]
  cases piece.1 with
  | nil => rfl
  | cons names around => simp [hnone]

/-- Two blocks in a third one, and braces that are closed behind a block. -/
def layers : Template :=
  .text "p\x7b".toList (.block " b , a".toList
    (.text "1 \x7b".toList (.block "b".toList (.text "\x7b2\x7d".toList .done)
      (.text "\x7d ".toList (.block [] (.text "3".toList .done) .done))))
    (.text "\x7d".toList .done))

/-- The template is resolved by the flags that are active, and a flag that is
disabled is not. -/
theorem resolveFlags_layers :
    layers.WellFormed
    ∧ resolveFlags ["a".toList] layers.write = .ok "p\x7b1 \x7b\x7d \x7d".toList
    ∧ resolveFlags ["b".toList] layers.write = .ok "p\x7b1 \x7b\x7b2\x7d\x7d \x7d".toList
    ∧ resolveFlags (["b".toList].foldl (State.activateFlag { disableFlags := true })
        (.start { disableFlags := true } layers.write)).flags layers.write
      = .ok "p\x7b\x7d".toList := by
  have hlayers : layers.WellFormed := by decide +kernel
  obtain ⟨hactive, hdisabled⟩ := resolveFlags_survivors hlayers
  refine ⟨hlayers, ?_, ?_, ?_⟩
  · exact (hactive ["a".toList]).trans (congrArg Except.ok (by decide +kernel))
  · exact (hactive ["b".toList]).trans (congrArg Except.ok (by decide +kernel))
  · exact (hdisabled { disableFlags := true } ["b".toList] rfl).trans
      (congrArg Except.ok (by decide +kernel))

end Flag

end Stylesheet
