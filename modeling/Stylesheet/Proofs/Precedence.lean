import Stylesheet.Proofs.Inert
import Stylesheet.Proofs.Loops

/-!
# Which value of a constant counts

Before processing, three stages write one table of constants, one after the
other: the constants of the configuration, of the feed and of the
`@constants` blocks, then the measures of the grid, then the variables of
loops. The inline entries read the table while it is filled, and loops write
it from within other loops.

`Sources` says what each of them defines, without a table that is passed
along by the stages: an inline entry is filled from what stands before it
(`Inline`), and the rounds of loops are those that the loops in the text come
to (`Loop.Executes`). `get?_preProcess`: a name has the value of the first
source that defines it, from the rounds down to the configuration.

The stages follow in their order, each with what it adds to the table.
-/

set_option autoImplicit false

namespace Stylesheet

/-! ### Layers of a table -/

/-- The value that pairs give to a name: of several the last one. -/
def lastValue? (name : Text) (pairs : List (Text × Text)) : Option Text :=
  pairs.reverse.lookup name

/-- Layers are written over each other, from the last one up, and a name has the
value of the first that defines it. -/
theorem Table.get?_layers (layers : List (List (Text × Text))) (name : Text) :
    (layers.foldr (fun pairs table => table.extend pairs) Table.empty).get? name
      = layers.findSome? (lastValue? name) := by
  induction layers with
  | nil => rfl
  | cons pairs layers ih =>
      rw [List.foldr_cons, Table.get?_extend, ih, List.findSome?_cons, lastValue?]
      cases pairs.reverse.lookup name <;> rfl

/-! ### Sources -/

/-- What the feed of a job defines: nothing, if there is none. -/
def Job.feedEntries (job : Job) : Except FeedError (List (Text × Text)) :=
  match job.config.feed with
  | none => .ok []
  | some path =>
    if job.tree.pathExists path then (Feed.load job.tree path).map Table.entries else .ok []

/-- The entries of blocks with their values. Each is filled from a table and
the entries before it, and from nothing else. -/
structure Inline (table : Table Text) (raw filled : List (Text × Text)) : Prop where
  names : filled.map Prod.fst = raw.map Prod.fst
  values : ∀ before name value after, filled = before ++ (name, value) :: after →
    ∃ template, raw[before.length]? = some (name, template)
      ∧ Placeholder.interpolate (table.extend before) template = .ok value

/-- The grid that the properties of a block describe, if none is missing. -/
def Layout.gridOf? (props : List (Text × Text)) : Option Grid :=
  match number? props "column-count", number? props "baseline", number? props "grid-width" with
  | some count, some baseline, some width =>
    some (Grid.derive (Grid.countOf count) baseline width
      ((number? props "left-gutter-width").getD 0.0) ((number? props "right-gutter-width").getD 0.0))
  | _, _, _ => none

/-- What the grid block of a text defines, and the text without it. -/
inductive Layout.Gives (t : Text) : List (Text × Text) → Text → Prop where
  | none {rest : Text} (h : Block.extract search t = .ok (rest, [])) : Gives t [] t
  | one {rest : Text} {b : Block} {grid : Grid} (h : Block.extract search t = .ok (rest, [b]))
      (hgrid : gridOf? (properties b.body) = some grid) : Gives t grid.constants rest

namespace Loop

/-- The value of a bound, with constants from a table. -/
def boundValue? (table : Table Text) (raw : Text) : Option Int :=
  match Placeholder.interpolate table (Text.trim raw) with
  | .ok t => Decimal.readInt64? (Text.trim t)
  | .error _ => none

/-- What is left to do while loops are expanded. -/
inductive Task where
  /-- The loops of a text. -/
  | text (t : Text)
  | loop (b : Block)
  /-- The rounds of one loop, for the values that are left. -/
  | rounds (name body : Text) (values : List Int)

/-- The rounds that take place while tasks are done one after the other, in
the order in which they begin. Each changes the table before its body is
looked at. -/
inductive Executes : Table Text → List Task → List (Text × Int) → Prop where
  | done (table : Table Text) : Executes table [] []
  | text {table : Table Text} {t : Text} {blocks : List Block} {rest : List Task}
      {rounds : List (Text × Int)} (hfind : Block.find search t = .ok blocks)
      (h : Executes table (blocks.map .loop ++ rest) rounds) :
      Executes table (.text t :: rest) rounds
  | loop {table : Table Text} {b : Block} {lower upper : Int} {rest : List Task}
      {rounds : List (Text × Int)} (hlower : boundValue? table (b.groupText 2) = some lower)
      (hupper : boundValue? table (b.groupText 3) = some upper)
      (h : Executes table (.rounds (b.groupText 1) b.body (Int.range lower (upper + 1)) :: rest)
        rounds) :
      Executes table (.loop b :: rest) rounds
  | ended {table : Table Text} {name body : Text} {rest : List Task} {rounds : List (Text × Int)}
      (h : Executes table rest rounds) : Executes table (.rounds name body [] :: rest) rounds
  | round {table : Table Text} {name body : Text} {i : Int} {values : List Int}
      {rest : List Task} {rounds : List (Text × Int)}
      (h : Executes (table.set name (Decimal.ofInt i))
        (.text body :: .rounds name body values :: rest) rounds) :
      Executes table (.rounds name body (i :: values) :: rest) ((name, i) :: rounds)

end Loop

/-- What the sources of constants define for a document. -/
structure Sources (job : Job) (t : Text) where
  feed : List (Text × Text)
  feed_eq : job.feedEntries = .ok feed
  blocks : List Block
  /-- The text without the blocks of constants. -/
  behindBlocks : Text
  blocks_eq : Block.extract Constants.search t = .ok (behindBlocks, blocks)
  inline : List (Text × Text)
  inline_eq : Inline (job.config.globals.extend feed) (blocks.flatMap fun b => properties b.body)
    inline
  grid : List (Text × Text)
  /-- The text without the grid block. -/
  behindGrid : Text
  grid_eq : Layout.Gives behindBlocks grid behindGrid
  rounds : List (Text × Int)
  rounds_eq : Loop.Executes (((job.config.globals.extend feed).extend inline).extend grid)
    [.text behindGrid] rounds

/-- What the sources define, the first one that counts first. -/
def Sources.ranked {job : Job} {t : Text} (d : Sources job t) : List (List (Text × Text)) :=
  [d.rounds.map fun p => (p.1, Decimal.ofInt p.2), d.grid, d.inline, d.feed,
    job.config.globals.entries]

/-! ### Sources are determined -/

/-- There is nothing to fill. -/
theorem Inline.nil (table : Table Text) : Inline table [] [] := by
  refine ⟨rfl, ?_⟩
  intro before name value after h
  simp at h

/-- The first entry is filled from the table, and the others from the table
with it. -/
theorem Inline.cons {table : Table Text} {raw filled : List (Text × Text)}
    {name template value : Text} (hvalue : Placeholder.interpolate table template = .ok value)
    (h : Inline (table.set name value) raw filled) :
    Inline table ((name, template) :: raw) ((name, value) :: filled) := by
  refine ⟨by simp [h.names], ?_⟩
  intro before name' value' after heq
  cases before with
  | nil =>
      obtain ⟨hhead, rfl⟩ := List.cons.inj heq
      cases hhead
      exact ⟨template, rfl, hvalue⟩
  | cons p before =>
      obtain ⟨rfl, rfl⟩ := List.cons.inj heq
      exact h.values before name' value' after rfl

/-- The entries behind the first, as seen from the table with the first. -/
theorem Inline.tail {table : Table Text} {raw filled : List (Text × Text)}
    {entry entry' : Text × Text} (h : Inline table (entry :: raw) (entry' :: filled)) :
    Inline (table.set entry'.1 entry'.2) raw filled := by
  refine ⟨(List.cons.inj h.names).2, ?_⟩
  rintro before name value after rfl
  obtain ⟨template, hraw, hvalue⟩ := h.values (entry' :: before) name value after rfl
  exact ⟨template, by simpa using hraw, hvalue⟩

/-- The first entry keeps its name and is filled from the table. -/
theorem Inline.head {table : Table Text} {raw filled : List (Text × Text)}
    {name template name' value : Text}
    (h : Inline table ((name, template) :: raw) ((name', value) :: filled)) :
    name' = name ∧ Placeholder.interpolate table template = .ok value := by
  obtain ⟨template', hraw, hvalue⟩ := h.values [] name' value filled rfl
  cases hraw
  exact ⟨rfl, hvalue⟩

/-- Entries are filled in one way only. -/
theorem Inline.unique {table : Table Text} {raw filled filled' : List (Text × Text)}
    (h : Inline table raw filled) (h' : Inline table raw filled') : filled = filled' := by
  induction raw generalizing table filled filled' with
  | nil =>
      rw [List.map_eq_nil_iff.mp h.names, List.map_eq_nil_iff.mp h'.names]
  | cons entry raw ih =>
      cases filled with
      | nil => cases h.names
      | cons p filled =>
          cases filled' with
          | nil => cases h'.names
          | cons p' filled' =>
              obtain ⟨hname, hvalue⟩ := h.head
              obtain ⟨hname', hvalue'⟩ := h'.head
              obtain rfl : p = p' :=
                Prod.ext (hname.trans hname'.symm) (Except.ok.inj (hvalue.symm.trans hvalue'))
              rw [ih h.tail h'.tail]

/-- A text has one grid at most. -/
theorem Layout.Gives.unique {t rest rest' : Text} {pairs pairs' : List (Text × Text)}
    (h : Gives t pairs rest) (h' : Gives t pairs' rest') : pairs = pairs' ∧ rest = rest' := by
  cases h with
  | none h =>
      cases h' with
      | none h' => exact ⟨rfl, rfl⟩
      | one h' hgrid' => simp [h] at h'
  | one h hgrid =>
      cases h' with
      | none h' => simp [h] at h'
      | one h' hgrid' =>
          rw [h] at h'
          cases h'
          rw [hgrid] at hgrid'
          cases hgrid'
          exact ⟨rfl, rfl⟩

/-- The head of the tasks says which rule applies. -/
theorem Loop.Executes.unique {table : Table Text} {tasks : List Task}
    {rounds rounds' : List (Text × Int)} (h : Executes table tasks rounds)
    (h' : Executes table tasks rounds') : rounds = rounds' := by
  induction h generalizing rounds' with
  | done => cases h' with | done => rfl
  | text hfind _ ih =>
      cases h' with
      | text hfind' h' =>
          rw [hfind] at hfind'
          cases hfind'
          exact ih h'
  | loop hlower hupper _ ih =>
      cases h' with
      | loop hlower' hupper' h' =>
          rw [hlower] at hlower'
          rw [hupper] at hupper'
          cases hlower'
          cases hupper'
          exact ih h'
  | ended _ ih => cases h' with | ended h' => exact ih h'
  | round _ ih => cases h' with | round h' => rw [ih h']

/-- A document has its sources in no more than one way. -/
theorem Sources.unique {job : Job} {t : Text} (d d' : Sources job t) : d = d' := by
  obtain ⟨feed, hfeed, blocks, behindBlocks, hblocks, inline, hinline, grid, behindGrid, hgrid,
    rounds, hrounds⟩ := d
  obtain ⟨feed', hfeed', blocks', behindBlocks', hblocks', inline', hinline', grid', behindGrid',
    hgrid', rounds', hrounds'⟩ := d'
  obtain rfl : feed = feed' := Except.ok.inj (hfeed.symm.trans hfeed')
  obtain ⟨rfl, rfl⟩ := Prod.mk.inj (Except.ok.inj (hblocks.symm.trans hblocks'))
  obtain rfl := hinline.unique hinline'
  obtain ⟨rfl, rfl⟩ := hgrid.unique hgrid'
  obtain rfl := hrounds.unique hrounds'
  rfl

/-! ### The stage of constants -/

section

variable {job : Job} {s s' : State}

namespace Constants

/-- A feed that was read has put its entries into the table, and nothing else
has changed. -/
theorem exists_of_run_readFeed (h : readFeed.run job s = .ok () s') :
    ∃ feed, job.feedEntries = .ok feed ∧ s'.constants = s.constants.extend feed
      ∧ s'.text = s.text := by
  have hread : (read : Compile Job).run job s = .ok job s := rfl
  unfold readFeed at h
  rw [run_bind_ok hread] at h
  unfold Job.feedEntries
  cases hfeed : job.config.feed with
  | none =>
      simp only [hfeed] at h
      cases h
      exact ⟨[], rfl, rfl, rfl⟩
  | some path =>
      simp only [hfeed] at h ⊢
      by_cases hexists : job.tree.pathExists path = true
      · rw [if_pos hexists] at h ⊢
        cases hload : Feed.load job.tree path with
        | error e =>
            simp only [hload] at h
            cases h
        | ok table =>
            simp only [hload] at h
            cases h
            exact ⟨table.entries, rfl, rfl, rfl⟩
      · -- A feed that is not there is reported, and the report may abort.
        rw [if_neg hexists] at h ⊢
        rw [Compile.run_report] at h
        split at h
        · cases h
        · cases h
          exact ⟨[], rfl, rfl, rfl⟩

/-- The entries are set one by one, and each is filled from the table that the
entries before it left. -/
theorem exists_of_run_setEntries {raw : List (Text × Text)}
    (h : (raw.forM setEntry).run job s = .ok () s') :
    ∃ filled, Inline s.constants raw filled
      ∧ s' = { s with constants := s.constants.extend filled } := by
  induction raw generalizing s with
  | nil =>
      cases h
      exact ⟨[], .nil _, rfl⟩
  | cons entry raw ih =>
      obtain ⟨_, s₁, hentry, h⟩ := exists_of_run_bind h
      obtain ⟨value, s₂, hrun, hset⟩ := exists_of_run_bind hentry
      obtain ⟨hvalue, rfl⟩ := Compile.eq_of_run_interpolate hrun
      cases hset
      obtain ⟨filled, hfilled, rfl⟩ := ih h
      exact ⟨(entry.1, value) :: filled, .cons hvalue hfilled, rfl⟩

/-- The blocks are gone from the text, and their entries are set over what was
there. -/
theorem exists_of_run_readBlocks (h : readBlocks.run job s = .ok () s') :
    ∃ t blocks filled, Block.extract search s.text = .ok (t, blocks)
      ∧ Inline s.constants (blocks.flatMap fun b => properties b.body) filled
      ∧ s' = { s with text := t, constants := s.constants.extend filled } := by
  unfold readBlocks at h
  rw [run_bind_ok (run_get job s)] at h
  obtain ⟨⟨t, blocks⟩, s₁, hrun, h⟩ := exists_of_run_bind h
  obtain ⟨hextract, rfl⟩ := Compile.eq_of_run_ofScan hrun
  obtain ⟨_, s₂, hset, h⟩ := exists_of_run_bind h
  cases hset
  obtain ⟨filled, hfilled, rfl⟩ := exists_of_run_setEntries h
  exact ⟨t, blocks, filled, hextract, hfilled, rfl⟩

end Constants

/-! ### The stage of the grid -/

namespace Layout

/-- A property that is asked for is there. -/
theorem exists_of_run_required {props : List (Text × Text)} {name : String} {x : Float}
    (h : (required props name).run job s = .ok x s') : number? props name = some x ∧ s = s' := by
  unfold required at h
  cases hnumber : number? props name with
  | none =>
      rw [hnumber] at h
      cases h
  | some y =>
      rw [hnumber] at h
      cases h
      exact ⟨rfl, rfl⟩

/-- A grid that was made has all its properties. -/
theorem exists_of_run_gridOf {props : List (Text × Text)} {grid : Grid}
    (h : (gridOf props).run job s = .ok grid s') : gridOf? props = some grid ∧ s = s' := by
  obtain ⟨count, s₁, hrun, h⟩ := exists_of_run_bind h
  obtain ⟨hcount, rfl⟩ := exists_of_run_required hrun
  obtain ⟨baseline, s₂, hrun, h⟩ := exists_of_run_bind h
  obtain ⟨hbaseline, rfl⟩ := exists_of_run_required hrun
  obtain ⟨width, s₃, hrun, h⟩ := exists_of_run_bind h
  obtain ⟨hwidth, rfl⟩ := exists_of_run_required hrun
  cases h
  exact ⟨by simp only [gridOf?, hcount, hbaseline, hwidth], rfl⟩

/-- The stage of the grid has found no block and done nothing, or it has found
one. -/
theorem exists_of_run (h : run.run job s = .ok () s') :
    ∃ pairs, Gives s.text pairs s'.text ∧ s'.constants = s.constants.extend pairs := by
  unfold run at h
  rw [run_bind_ok (run_get job s)] at h
  obtain ⟨⟨t, blocks⟩, s₁, hrun, h⟩ := exists_of_run_bind h
  obtain ⟨hextract, rfl⟩ := Compile.eq_of_run_ofScan hrun
  cases blocks with
  | nil =>
      cases h
      exact ⟨[], .none hextract, rfl⟩
  | cons b more =>
      cases more with
      | nil =>
          obtain ⟨_, s₂, hset, h⟩ := exists_of_run_bind h
          cases hset
          obtain ⟨grid, s₃, hrun, h⟩ := exists_of_run_bind h
          obtain ⟨hgrid, rfl⟩ := exists_of_run_gridOf hrun
          cases h
          exact ⟨grid.constants, .one hextract hgrid, rfl⟩
      | cons b' more => cases h

end Layout

/-! ### The stage of loops -/

namespace Loop

/-- Between two states some tasks were done, whatever is done behind them. -/
def Done (tasks : List Task) (s s' : State) : Prop :=
  ∃ rounds, s' = after s rounds ∧ ∀ rest more, Executes s'.constants rest more →
    Executes s.constants (tasks ++ rest) (rounds ++ more)

namespace Done

/-- No task takes no time. -/
theorem refl (s : State) : Done [] s s :=
  ⟨[], rfl, fun _ _ h => h⟩

/-- Tasks that were done one after the other. -/
theorem trans {s₁ s₂ s₃ : State} {tasks more : List Task} (h : Done tasks s₁ s₂)
    (h' : Done more s₂ s₃) : Done (tasks ++ more) s₁ s₃ := by
  obtain ⟨rounds, rfl, hrounds⟩ := h
  obtain ⟨rounds', rfl, hrounds'⟩ := h'
  refine ⟨rounds ++ rounds', (after_append s₁ rounds rounds').symm, ?_⟩
  intro rest others hrest
  rw [List.append_assoc, List.append_assoc]
  exact hrounds _ _ (hrounds' rest others hrest)

/-- A text is done when its loops are. -/
theorem text {t : Text} {blocks : List Block} (hfind : Block.find search t = .ok blocks)
    (h : Done (blocks.map .loop) s s') : Done [.text t] s s' := by
  obtain ⟨rounds, rfl, hrounds⟩ := h
  exact ⟨rounds, rfl, fun rest more hrest => .text hfind (hrounds rest more hrest)⟩

/-- A loop is done when its rounds are. Its bounds are taken from the table
before the first of them. -/
theorem loop {b : Block} {lower upper : Int}
    (hlower : boundValue? s.constants (b.groupText 2) = some lower)
    (hupper : boundValue? s.constants (b.groupText 3) = some upper)
    (h : Done [.rounds (b.groupText 1) b.body (Int.range lower (upper + 1))] s s') :
    Done [.loop b] s s' := by
  obtain ⟨rounds, rfl, hrounds⟩ := h
  exact ⟨rounds, rfl, fun rest more hrest => .loop hlower hupper (hrounds rest more hrest)⟩

/-- A loop without rounds left is done. -/
theorem ended (name body : Text) (s : State) : Done [.rounds name body []] s s :=
  ⟨[], rfl, fun _ _ h => .ended h⟩

/-- One round sets the variable, does the body, and goes on with the values
that are left. -/
theorem round {name body : Text} {i : Int} {values : List Int}
    (h : Done [.text body, .rounds name body values] (after s [(name, i)]) s') :
    Done [.rounds name body (i :: values)] s s' := by
  obtain ⟨rounds, rfl, hrounds⟩ := h
  exact ⟨(name, i) :: rounds, (after_append s [(name, i)] rounds).symm,
    fun rest more hrest => .round (hrounds rest more hrest)⟩

end Done

/-- A bound that was read has a value, and reading it changes nothing. -/
theorem exists_of_run_bound {which : String} {raw : Text} {i : Int}
    (h : (bound which raw).run job s = .ok i s') : boundValue? s.constants raw = some i ∧ s = s' := by
  obtain ⟨t, s₁, hrun, h⟩ := exists_of_run_bind h
  obtain ⟨hinterpolate, rfl⟩ := Compile.eq_of_run_interpolate hrun
  simp only [boundValue?, hinterpolate]
  cases hread : Decimal.readInt64? (Text.trim t) with
  | none =>
      simp only [hread] at h
      cases h
  | some j =>
      simp only [hread] at h
      cases h
      exact ⟨rfl, rfl⟩

/-- The rounds of one loop: in each of them the variable is set, and then the
loops of the body are done. -/
theorem done_rounds {name body : Text} {x : Compile Text}
    (hx : ∀ {s s' : State} {t : Text}, x.run job s = .ok t s' → Done [.text body] s s')
    {count : Nat} {first : Int} {out : Text} (h : (rounds name x count first).run job s = .ok out s') :
    Done [.rounds name body ((List.range count).map fun k : Nat => first + k)] s s' := by
  induction count generalizing first s out with
  | zero =>
      cases h
      exact .ended name body _
  | succ count ih =>
      obtain ⟨_, s₁, hset, h⟩ := exists_of_run_bind h
      cases hset
      obtain ⟨t, s₂, hbody, h⟩ := exists_of_run_bind h
      -- Filling the placeholders of the body changes no constant.
      obtain ⟨t', s₃, hrun, h⟩ := exists_of_run_bind h
      obtain ⟨-, rfl⟩ := Compile.eq_of_run_interpolate hrun
      obtain ⟨others, s₄, hrest, h⟩ := exists_of_run_bind h
      cases h
      rw [map_range_succ]
      exact .round ((hx hbody).trans (ih hrest))

/-- One loop. `hx` is about its body, which the recursion has done before. -/
theorem done_expandBlock {b : Block} {x : Compile Text}
    (hx : ∀ {s s' : State} {t : Text}, x.run job s = .ok t s' → Done [.text b.body] s s')
    {out : Text} (h : (expandBlock b x).run job s = .ok out s') : Done [.loop b] s s' := by
  obtain ⟨lower, s₁, hrun, h⟩ := exists_of_run_bind h
  obtain ⟨hlower, rfl⟩ := exists_of_run_bound hrun
  obtain ⟨upper, s₂, hrun, h⟩ := exists_of_run_bind h
  obtain ⟨hupper, rfl⟩ := exists_of_run_bound hrun
  exact .loop hlower hupper (done_rounds hx h)

/-- The loops of a text are done in their order. -/
theorem done_fillParts {f : Block → Compile Text} {parts : List (Text × Block)} {last : Text}
    (hf : ∀ p ∈ parts, ∀ {s s' : State} {t : Text}, (f p.2).run job s = .ok t s' →
      Done [.loop p.2] s s')
    {out : Text} (h : (Cut.fillParts f last parts).run job s = .ok out s') :
    Done ((parts.map Prod.snd).map .loop) s s' := by
  induction parts generalizing s out with
  | nil =>
      cases h
      exact .refl _
  | cons p parts ih =>
      obtain ⟨new, s₁, hp, h⟩ := exists_of_run_bind h
      obtain ⟨others, s₂, hrest, h⟩ := exists_of_run_bind h
      cases h
      rw [List.forall_mem_cons] at hf
      exact (hf.1 hp).trans (ih hf.2 hrest)

/-- All loops of a text, by induction on its length: bodies are shorter. -/
theorem done_expandLoops {t out : Text} (h : (expandLoops t).run job s = .ok out s') :
    Done [.text t] s s' := by
  induction hn : t.length using Nat.strongRecOn generalizing t s s' out with
  | ind n ih =>
      cases hcut : Block.cut search t with
      | error e =>
          rw [expandLoops] at h
          split at h
          · cases h
          · simp_all
      | ok cut =>
          rw [expandLoops_of_cut hcut] at h
          have hfind : Block.find search t = .ok cut.items := by
            rw [Block.find, hcut]
            rfl
          refine .text hfind (done_fillParts ?_ h)
          intro p hp s s' out hrun
          have hshorter : p.2.body.length < n :=
            hn ▸ Block.length_body_lt_of_cut hcut p.2 (List.mem_map_of_mem hp)
          exact done_expandBlock (fun hbody => ih _ hshorter hbody rfl) hrun

/-- The stage of the loops: the table behind it has the values of the rounds,
the last one of each variable on top. -/
theorem exists_of_run_iteration {phase : Phase}
    (h : (Stage.iteration.run phase).run job s = .ok () s') :
    ∃ rounds, Executes s.constants [.text s.text] rounds
      ∧ s'.constants = s.constants.extend (rounds.map fun p => (p.1, Decimal.ofInt p.2)) := by
  have hrun : (expandLoops s.text >>= Compile.setText).run job { s with text := [] } = .ok () s' := h
  obtain ⟨t, s₁, hloops, hset⟩ := exists_of_run_bind hrun
  obtain ⟨rounds, rfl, hrounds⟩ := done_expandLoops hloops
  cases hset
  have hexecutes := hrounds [] [] (.done _)
  rw [List.append_nil, List.append_nil] at hexecutes
  exact ⟨rounds, hexecutes, rfl⟩

end Loop

/-! ### The phase -/

/-- The mixins are taken out of the text, and the table stays. -/
theorem Mixin.constants_of_run_extract (h : Mixin.extract.run job s = .ok () s') :
    s'.constants = s.constants := by
  unfold Mixin.extract at h
  rw [run_bind_ok (run_get job s)] at h
  obtain ⟨⟨t, blocks⟩, s₁, hrun, h⟩ := exists_of_run_bind h
  obtain ⟨-, rfl⟩ := Compile.eq_of_run_ofScan hrun
  cases h
  rfl

/-- The three sources of the first stage. The table is empty at its start, so
what is in it afterwards comes from them. -/
theorem exists_of_run_seed (hempty : s.constants = .empty)
    (h : Constants.seed.run job s = .ok () s') :
    ∃ feed blocks filled, job.feedEntries = .ok feed
      ∧ Block.extract Constants.search s.text = .ok (s'.text, blocks)
      ∧ Inline (job.config.globals.extend feed) (blocks.flatMap fun b => properties b.body) filled
      ∧ s'.constants = (job.config.globals.extend feed).extend filled := by
  have hconfig : Compile.config.run job s = .ok job.config s := rfl
  -- Nothing was set before, so the first step leaves the table of the configuration.
  have hglobals : (Constants.extend job.config.globals.entries).run job s
      = .ok () { s with constants := job.config.globals } := by
    show EStateM.Result.ok () { s with constants := s.constants.extend _ } = _
    rw [hempty, Table.empty_extend]
  unfold Constants.seed at h
  rw [run_bind_ok hconfig, run_bind_ok hglobals] at h
  obtain ⟨_, s₁, hrun, h⟩ := exists_of_run_bind h
  obtain ⟨feed, hfeed, hconstants, htext⟩ := Constants.exists_of_run_readFeed hrun
  obtain ⟨t, blocks, filled, hextract, hfilled, rfl⟩ := Constants.exists_of_run_readBlocks h
  rw [htext] at hextract
  rw [hconstants] at hfilled
  exact ⟨feed, blocks, filled, hfeed, hextract, hfilled, by rw [hconstants]⟩

end

/-- If the phase before processing succeeds, each of the sources is there. A
name has the value of the first source that defines it: of the last round of
a loop with this variable, then of the grid, then of the last inline entry,
then of the feed, then of the configuration. If none of them does, it has no
value. -/
theorem get?_preProcess {job : Job} {s s' : State} (hempty : s.constants = .empty)
    (hrun : (Stage.runPhase Stage.standard .preProcess).run job s = .ok () s') :
    Nonempty (Sources job s.text) ∧ ∀ (d : Sources job s.text) (name : Text),
      s'.constants.get? name = d.ranked.findSome? (lastValue? name) := by
  have hstages : Stage.standard.filter (fun stage => decide (Phase.preProcess ∈ stage.phases))
      = [Constants.stage, Layout.stage, Stage.iteration, Mixin.stage] := rfl
  rw [Stage.runPhase, hstages] at hrun
  obtain ⟨_, s₁, hseed, hrun⟩ := exists_of_run_bind hrun
  obtain ⟨_, s₂, hlayout, hrun⟩ := exists_of_run_bind hrun
  obtain ⟨_, s₃, hiteration, hrun⟩ := exists_of_run_bind hrun
  obtain ⟨_, s₄, hextract, hrun⟩ := exists_of_run_bind hrun
  cases hrun
  obtain ⟨feed, blocks, inline, hfeed, hblocks, hinline, hseeded⟩ := exists_of_run_seed hempty hseed
  obtain ⟨grid, hgrid, hmeasured⟩ := Layout.exists_of_run hlayout
  obtain ⟨rounds, hrounds, hlooped⟩ := Loop.exists_of_run_iteration hiteration
  rw [hmeasured, hseeded] at hrounds hlooped
  let d : Sources job s.text :=
    ⟨feed, hfeed, blocks, s₁.text, hblocks, inline, hinline, grid, s₂.text, hgrid, rounds, hrounds⟩
  refine ⟨⟨d⟩, fun d' name => ?_⟩
  -- What was written last stands first among the layers.
  rw [Mixin.constants_of_run_extract hextract, hlooped, d'.unique d, ← Table.get?_layers]
  simp only [Sources.ranked, List.foldr_cons, List.foldr_nil, Table.empty_extend, d]

/-- A document that defines `a` in its blocks and in a loop, and has a grid. -/
def layered : State where
  text := "@constants \x7b a: $b$c; c: $a \x7d p \x7b \x7d @constants \x7b a: \x7b$c\x7dz \x7d".toList
    ++ "@grid \x7b column-count: 2; baseline: 18px; grid-width: 500 \x7d".toList
    ++ "@for $a from 3 to 4 \x7b@for $i from -1 to +0 \x7bx\x7dy\x7d".toList
    ++ "@for $n from 1 to 0 \x7b\x7d".toList

/-- A configuration and a feed that define `a` as well. -/
def layeredJob : Job where
  path := .of "main.css"
  config := { feed := some (.of "feed.json"),
              globals := .ofPairs [("a".toList, "1".toList), ("b".toList, "2".toList)] }
  tree :=
    { workDir := []
      entries := [(["feed.json".toList],
        .file ⟨some "\x7b\"b\": \"3\", \"c\": true, \"a\": \"\"\x7d".toList, none⟩)] }

/-- The text behind a run that succeeded. -/
def textBehind? : EStateM.Result Error State Unit → Option Text
  | .ok _ s => some s.text
  | .error _ _ => none

/-- The document passes the phase, with every kind of source in it. -/
theorem get?_preProcess_layered :
    layered.constants = .empty ∧ ∃ s',
      (Stage.runPhase Stage.standard .preProcess).run layeredJob layered = .ok () s'
      ∧ s'.text = " p \x7b \x7d xxyxxy".toList
      ∧ Nonempty (Sources layeredJob layered.text)
      ∧ ∀ (d : Sources layeredJob layered.text) (name : Text),
        s'.constants.get? name = d.ranked.findSome? (lastValue? name) := by
  have hempty : layered.constants = .empty := rfl
  have htext : textBehind? ((Stage.runPhase Stage.standard .preProcess).run layeredJob layered)
      = some " p \x7b \x7d xxyxxy".toList := by decide +kernel
  cases hrun : (Stage.runPhase Stage.standard .preProcess).run layeredJob layered with
  | error e s' =>
      rw [hrun] at htext
      cases htext
  | ok _ s' =>
      rw [hrun] at htext
      exact ⟨hempty, s', rfl, Option.some.inj htext, get?_preProcess hempty hrun⟩

end Stylesheet
