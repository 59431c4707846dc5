import Stylesheet.Compiler
import Stylesheet.Proofs.Run

/-!
# The error threshold only cuts a compilation short

A threshold turns reported diagnostics into aborts. This file compares a
compilation under the threshold zero, where no reported diagnostic
aborts, with the same compilation under any threshold.

`CutShort` says of one action how the two runs are related. The run under
zero appends some diagnostics to the state. If one of them aborts at the
threshold, the other run ends in the promotion of the first such
diagnostic; if none does, the two runs are the same, with the same value
or error and the same state. `report` has this property because it looks
at the threshold and at nothing else, and every other action has it
because it is put together from reports and from actions that do not look
at the threshold. The lemmas follow the stages in their order.

`compile_cutShort` is the statement for whole compilations.
-/

set_option autoImplicit false

namespace Stylesheet

/-! ### Two runs of one action -/

/-- The job under another threshold. -/
def Job.withThreshold (job : Job) (threshold : Nat) : Job :=
  { job with config := { job.config with errorThreshold := threshold } }

/-- The first diagnostic that a threshold turns into an abort. -/
def firstAbort? (threshold : Nat) (ds : List Diagnostic) : Option Diagnostic :=
  ds.find? fun d => decide (d.severity.level ≤ threshold)

/-- The run `cut` under a threshold follows the run `full` under the
threshold zero, which starts from `s` and reports `new`, up to the first
diagnostic that the threshold turns into an abort. -/
structure Follows {α : Type} (threshold : Nat) (s : State) (new : List Diagnostic)
    (full cut : EStateM.Result Error State α) : Prop where
  diagnostics_eq : (endState full).diagnostics = s.diagnostics ++ new
  not_fatal : ∀ d ∈ new, d.severity ≠ .fatal
  eq_of_none : firstAbort? threshold new = none → cut = full
  abort_of_some : ∀ d, firstAbort? threshold new = some d →
    ∃ s', cut = .error (.fatal d.promoted) s'

/-- The threshold only cuts the runs of an action short. -/
def CutShort {α : Type} (x : Compile α) : Prop :=
  ∀ (job : Job) (threshold : Nat) (s : State), ∃ new, Follows threshold s new
    (x.run (job.withThreshold 0) s) (x.run (job.withThreshold threshold) s)

/-- The first abort of two runs of reports is in the first run, unless that has
none. -/
theorem firstAbort?_append (threshold : Nat) (ds es : List Diagnostic) :
    firstAbort? threshold (ds ++ es) = (firstAbort? threshold ds).or (firstAbort? threshold es) :=
  List.find?_append

/-- What a report does under a threshold. -/
theorem run_report {d : Diagnostic} (hd : d.severity ≠ .fatal) (job : Job) (threshold : Nat)
    (s : State) :
    (Compile.report d).run (job.withThreshold threshold) s
      = if d.severity.level ≤ threshold then .error (.fatal (d.located job.path).promoted) s
        else .ok () { s with diagnostics := s.diagnostics ++ [d.located job.path] } := by
  have haborts : d.severity.abortsAt threshold = decide (d.severity.level ≤ threshold) := by
    simp [Severity.abortsAt, hd]
  rw [Compile.run_report]
  show (if d.severity.abortsAt threshold then _ else _) = _
  rw [haborts]
  simp only [decide_eq_true_eq]
  rfl

namespace CutShort

variable {α β : Type}

/-- An action that reports nothing and does not look at the threshold. -/
theorem silent {x : Compile α}
    (hjob : ∀ (job : Job) (threshold : Nat) (s : State),
      x.run (job.withThreshold threshold) s = x.run (job.withThreshold 0) s)
    (hdiagnostics : ∀ (job : Job) (s : State),
      (endState (x.run job s)).diagnostics = s.diagnostics) : CutShort x := by
  intro job threshold s
  refine ⟨[], ?_, ?_, fun _ => hjob job threshold s, ?_⟩
  · rw [hdiagnostics, List.append_nil]
  · intro d hd
    cases hd
  · intro d hd
    cases hd

/-- Giving a value reports nothing. -/
theorem pure (a : α) : CutShort (Pure.pure a : Compile α) :=
  silent (fun _ _ _ => rfl) (fun _ _ => rfl)

/-- A failure is the same under every threshold. -/
theorem throw (e : Error) : CutShort (MonadExcept.throw e : Compile α) :=
  silent (fun _ _ _ => rfl) (fun _ _ => rfl)

/-- The state has the diagnostics so far in it, but not the threshold. -/
theorem get : CutShort (MonadState.get : Compile State) :=
  silent (fun _ _ _ => rfl) (fun _ _ => rfl)

/-- A change of the state that leaves the diagnostics alone. -/
theorem update {f : State → State} (hf : ∀ s, (f s).diagnostics = s.diagnostics) :
    CutShort (modify f : Compile Unit) :=
  silent (fun _ _ _ => rfl) (fun _ s => hf s)

/-- An abort does not ask for the threshold. Its diagnostic ends the run as it
stands and is not left behind, so it may well be fatal. -/
theorem abort (d : Diagnostic) : CutShort (Compile.abort d : Compile α) :=
  silent (fun _ _ _ => rfl) (fun _ _ => rfl)

/-- One action after another. What the first one reports comes first, so
an abort in it hides everything the second one would do. -/
theorem bind {x : Compile α} {k : α → Compile β} (hx : CutShort x) (hk : ∀ a, CutShort (k a)) :
    CutShort (x >>= k) := by
  intro job threshold s
  obtain ⟨new, hx⟩ := hx job threshold s
  rw [run_bind, run_bind]
  cases hfull : x.run (job.withThreshold 0) s with
  | error e s₁ =>
      rw [hfull] at hx
      refine ⟨new, hx.diagnostics_eq, hx.not_fatal, ?_, ?_⟩
      · intro hnone
        rw [hx.eq_of_none hnone]
      · intro d hd
        obtain ⟨s', hs'⟩ := hx.abort_of_some d hd
        exact ⟨s', by rw [hs']⟩
  | ok a s₁ =>
      rw [hfull] at hx
      obtain ⟨more, hmore⟩ := hk a job threshold s₁
      refine ⟨new ++ more, ?_, ?_, ?_, ?_⟩
      · rw [hmore.diagnostics_eq, ← List.append_assoc]
        exact congrArg (· ++ more) hx.diagnostics_eq
      · intro d hd
        rcases List.mem_append.mp hd with hd | hd
        · exact hx.not_fatal d hd
        · exact hmore.not_fatal d hd
      · intro hnone
        rw [firstAbort?_append, Option.or_eq_none_iff] at hnone
        rw [hx.eq_of_none hnone.1]
        exact hmore.eq_of_none hnone.2
      · intro d hd
        rw [firstAbort?_append] at hd
        cases hfirst : firstAbort? threshold new with
        | some d' =>
            -- The abort comes in the first action already.
            rw [hfirst, Option.some_or, Option.some.injEq] at hd
            obtain ⟨s', hs'⟩ := hx.abort_of_some d' hfirst
            exact ⟨s', by rw [hs', hd]⟩
        | none =>
            rw [hfirst, Option.none_or] at hd
            rw [hx.eq_of_none hfirst]
            exact hmore.abort_of_some d hd

/-- A change of the state behind an action, whether or not it fails, that
leaves the diagnostics alone. -/
theorem atEnd {x : Compile α} {f : State → State}
    (hf : ∀ s, (f s).diagnostics = s.diagnostics) (hx : CutShort x) :
    CutShort (tryFinally x (modify f : Compile Unit)) := by
  intro job threshold s
  obtain ⟨new, hx⟩ := hx job threshold s
  rw [run_finally, run_finally]
  refine ⟨new, ?_, hx.not_fatal, ?_, ?_⟩
  · rw [endState_mapState, hf, hx.diagnostics_eq]
  · intro hnone
    rw [hx.eq_of_none hnone]
  · intro d hd
    obtain ⟨s', hs'⟩ := hx.abort_of_some d hd
    exact ⟨f s', by rw [hs']; rfl⟩

/-- An action that begins by looking at the job, and goes on in the same
way whatever the threshold is. -/
theorem read_bind {k : Job → Compile α} (hk : ∀ job, CutShort (k job))
    (hsame : ∀ job threshold, k (job.withThreshold threshold) = k job) :
    CutShort (read >>= k) := by
  intro job threshold s
  show ∃ new, Follows threshold s new
    ((k (job.withThreshold 0)).run (job.withThreshold 0) s)
    ((k (job.withThreshold threshold)).run (job.withThreshold threshold) s)
  rw [hsame, hsame]
  exact hk job job threshold s

/-- The same for an action that begins by looking at the configuration. -/
theorem config_bind {k : Config → Compile α} (hk : ∀ config, CutShort (k config))
    (hsame : ∀ config threshold, k { config with errorThreshold := threshold } = k config) :
    CutShort (Compile.config >>= k) :=
  read_bind (fun job => hk job.config) (fun job threshold => hsame job.config threshold)

/-- A report looks at the threshold and aborts, or leaves the diagnostic
behind. The diagnostic must not be fatal: a fatal one aborts under the
threshold zero too and is never left behind. -/
theorem report {d : Diagnostic} (hd : d.severity ≠ .fatal) : CutShort (Compile.report d) := by
  intro job threshold s
  have hseverity : (d.located job.path).severity = d.severity := by
    unfold Diagnostic.located
    split <;> rfl
  -- With threshold zero only what is fatal aborts.
  have hpos : ¬ d.severity.level ≤ 0 := by
    revert hd
    cases d.severity <;> simp [Severity.level]
  rw [run_report hd, run_report hd, if_neg hpos]
  refine ⟨[d.located job.path], rfl, ?_, ?_, ?_⟩
  · intro d' hd'
    rw [List.mem_singleton.mp hd', hseverity]
    exact hd
  · intro hnone
    have hlevel : ¬ d.severity.level ≤ threshold := by
      simpa [firstAbort?, hseverity] using hnone
    rw [if_neg hlevel]
  · intro d' hd'
    obtain rfl : d' = d.located job.path := List.mem_singleton.mp (List.mem_of_find?_eq_some hd')
    have hlevel := List.find?_some hd'
    rw [hseverity, decide_eq_true_eq] at hlevel
    rw [if_pos hlevel]
    exact ⟨s, rfl⟩

/-! ### Actions over lists -/

/-- Actions for each element in turn. Only those of the list are run, so only
they need to be known. -/
theorem forM {f : α → Compile PUnit} {l : List α} (hf : ∀ a ∈ l, CutShort (f a)) :
    CutShort (l.forM f) := by
  induction l with
  | nil => exact pure _
  | cons a l ih =>
      exact bind (hf a List.mem_cons_self)
        fun _ => ih fun b hb => hf b (List.mem_cons_of_mem _ hb)

/-- A fold. The value that is carried along may depend on what was read, so the
step has to be known for all of them. -/
theorem foldlM {f : β → α → Compile β} (hf : ∀ b a, CutShort (f b a)) (l : List α) (init : β) :
    CutShort (l.foldlM f init) := by
  induction l generalizing init with
  | nil => exact pure _
  | cons a l ih =>
      rw [List.foldlM_cons]
      exact bind (hf init a) ih

/-- Filling the items of a cut from left to right. The text between them is
only copied. -/
theorem fillM {f : α → Compile Text} (hf : ∀ a, CutShort (f a)) (cut : Cut α) :
    CutShort (cut.fillM f) := by
  obtain ⟨parts, rest⟩ := cut
  unfold Cut.fillM
  induction parts with
  | nil => exact pure _
  | cons part parts ih => exact bind (hf part.2) fun _ => bind ih fun _ => pure _

/-! ### Actions that every stage uses -/

/-- A bracket that is not closed is a failure of its own and no diagnostic. -/
theorem ofScan (x : Except ScanError α) : CutShort (Compile.ofScan x) := by
  cases x with
  | ok a => exact pure a
  | error e => exact throw _

/-- A constant that is not known aborts; nothing is reported. -/
theorem interpolateWith (constants : Table Text) (t : Text) :
    CutShort (Compile.interpolateWith constants t) := by
  unfold Compile.interpolateWith
  split
  · exact pure _
  · exact abort _

/-- The constants are those of the state at this moment. -/
theorem interpolate (t : Text) : CutShort (Compile.interpolate t) :=
  bind get fun s => interpolateWith s.constants t

/-- A condition that cannot be decided aborts, and one whose braces do not
match fails. -/
theorem resolveConditionals (t : Text) : CutShort (Compile.resolveConditionals t) := by
  unfold Compile.resolveConditionals
  split
  · exact pure _
  · exact abort _
  · exact throw _
  · exact throw _

/-- A text that is no stylesheet fails with an error of its own. -/
theorem parse (t : Text) : CutShort (Compile.parse t) := by
  unfold Compile.parse
  split
  · exact pure _
  · exact throw _
  · exact throw _

/-- The text of the document is not a diagnostic. -/
theorem setText (t : Text) : CutShort (Compile.setText t) :=
  update fun _ => rfl

/-- Taking the text away leaves an empty one in its place. -/
theorem takeText : CutShort Compile.takeText :=
  bind get fun _ => bind (setText _) fun _ => pure _

/-- A constant is set without a word, whether it was known or not. -/
theorem setConstant (name value : Text) : CutShort (Compile.setConstant name value) :=
  update fun _ => rfl

/-- The constants are put back also when the action fails, and that is no
report. -/
theorem withConstants (pairs : List (Text × Text)) {x : Compile α} (hx : CutShort x) :
    CutShort (Compile.withConstants pairs x) :=
  bind get fun _ => bind (update fun _ => rfl) fun _ => atEnd (fun _ => rfl) hx

/-- The mixin is taken off the stack also when its expansion fails. -/
theorem whileExpanding (name : Text) {x : Compile α} (hx : CutShort x) :
    CutShort (Compile.whileExpanding name x) :=
  bind (update fun _ => rfl) fun _ => atEnd (fun _ => rfl) hx

/-- The job is asked for its files, and these are the same under every
threshold. A file that cannot be read fails. -/
theorem loadSource (path : Path) : CutShort (Compile.loadSource path) := by
  refine read_bind (fun job => ?_) (fun _ _ => rfl)
  cases Source.load job.tree path with
  | ok source => exact pure source
  | error e => exact throw e

/-- Recording a file leaves the diagnostics alone, whether it was recorded
before or not. -/
theorem diagnostics_recordFile (s : State) (path : Path) (modified : Option Nat) :
    (s.recordFile path modified).diagnostics = s.diagnostics := by
  unfold State.recordFile
  split <;> rfl

/-- Whether the file is new is found out from the state, so the run is the same
under every threshold. -/
theorem recordFile (path : Path) (modified : Option Nat) :
    CutShort (Compile.recordFile path modified) :=
  silent (fun _ _ _ => rfl) (fun _ s => diagnostics_recordFile s path modified)

/-! ### Includes -/

/-- An extension that is replaced is reported before the file is looked for. A
file that is not found aborts. -/
theorem locate (dir : Path) (name : Text) : CutShort (Include.locate dir name) := by
  unfold Include.locate
  cases Include.normalize name with
  | mk path replaced =>
      rcases replaced with _ | extension
      rotate_left
      -- A replaced extension is reported; the file is looked for in both cases.
      refine bind (report (by simp [Include.extensionDiagnostic])) fun _ => ?_
      all_goals
        refine read_bind (fun job => ?_) (fun _ _ => rfl)
        dsimp only
        split
        · exact pure _
        · exact abort _

/-- A directive that goes further down does so by `expand`, which is one level
below and so is known to be cut short. -/
theorem expandItem {deeper : Option (Path → Text → Compile Text)}
    (hdeeper : ∀ expand ∈ deeper, ∀ dir t, CutShort (expand dir t)) (dir : Path)
    (item : Include.Item) : CutShort (Include.expandItem deeper dir item) := by
  cases item with
  | inert t => exact pure t
  | directive name =>
      refine bind (locate dir name) fun path => bind (loadSource path) fun source => ?_
      refine read_bind (fun job => bind (recordFile _ _) fun new => ?_) (fun _ _ => rfl)
      cases deeper with
      | none => exact pure _
      | some expand =>
          cases new with
          | false => exact pure _
          | true => exact hdeeper expand rfl _ _

/-- All levels, by induction on their number. -/
theorem expandIncludes (levels : Nat) (dir : Path) (t : Text) :
    CutShort (Include.expandLevels levels dir t) := by
  induction levels generalizing dir t with
  | zero => exact fillM (expandItem (fun expand h => absurd h (Option.not_mem_none expand)) dir) _
  | succ levels ih =>
      refine fillM (expandItem (fun expand h => ?_) dir) _
      cases h
      exact ih

/-- The number of levels comes from the files of the job and not from its
threshold. -/
theorem resolveIncludes (dir : Path) (t : Text) : CutShort (Stylesheet.resolveIncludes dir t) :=
  read_bind (fun _ => expandIncludes _ dir t) (fun _ _ => rfl)

/-! ### Constants and the grid -/

/-- Constants are added without a word. -/
theorem extend (pairs : List (Text × Text)) : CutShort (Constants.extend pairs) :=
  update fun _ => rfl

/-- A feed that is not there is reported, and one that cannot be read aborts. -/
theorem readFeed : CutShort Constants.readFeed := by
  refine read_bind (fun job => ?_) (fun _ _ => rfl)
  split
  · exact pure _
  · split
    · split
      · exact extend _
      · exact abort _
    · exact report (by simp [Constants.missingFeedDiagnostic])

/-- The value of an entry may have placeholders in it, which are filled first. -/
theorem setEntry (entry : Text × Text) : CutShort (Constants.setEntry entry) :=
  bind (interpolate entry.2) fun _ => setConstant _ _

/-- The blocks are taken out of the text, and their entries are set one after
the other. -/
theorem readBlocks : CutShort Constants.readBlocks :=
  bind get fun _ => bind (ofScan _) fun _ => bind (setText _) fun _ =>
    forM fun entry _ => setEntry entry

/-- The constants come from the configuration, the feed and the blocks, in this
order. The configuration is asked for its constants only. -/
theorem seed : CutShort Constants.seed :=
  config_bind (fun _ => bind (extend _) fun _ => bind readFeed fun _ => readBlocks) (fun _ _ => rfl)

/-- Placeholders in the document are filled or abort. -/
theorem fill : CutShort Constants.fill :=
  bind get fun _ => bind (interpolate _) fun _ => setText _

/-- A property that is missing aborts. -/
theorem required (props : List (Text × Text)) (name : String) :
    CutShort (Layout.required props name) := by
  unfold Layout.required
  split
  · exact pure _
  · exact abort _

/-- Three properties are asked for, and the first one that is missing aborts. -/
theorem gridOf (props : List (Text × Text)) : CutShort (Layout.gridOf props) :=
  bind (required _ _) fun _ => bind (required _ _) fun _ => bind (required _ _) fun _ => pure _

/-- One block is a grid, and two of them abort. -/
theorem grid : CutShort Layout.run := by
  refine bind get fun _ => bind (ofScan _) fun found => ?_
  obtain ⟨text, blocks⟩ := found
  dsimp only
  split
  · exact pure _
  · exact bind (setText _) fun _ => bind (gridOf _) fun _ => bind (extend _) fun _ =>
      update fun _ => rfl
  · exact abort _

/-! ### Loops -/

/-- A bound may be a placeholder, and it aborts if no number comes out. -/
theorem bound (which : String) (raw : Text) : CutShort (Loop.bound which raw) := by
  refine bind (interpolate _) fun value => ?_
  dsimp only
  split
  · exact pure _
  · exact abort _

/-- The rounds of a loop, by induction on how many are left. Each of them sets
the counter and runs the body. -/
theorem rounds (name : Text) {body : Compile Text} (hbody : CutShort body) (count : Nat)
    (i : Int) : CutShort (Loop.rounds name body count i) := by
  induction count generalizing i with
  | zero => exact pure _
  | succ count ih =>
      exact bind (setConstant _ _) fun _ => bind hbody fun _ => bind (interpolate _) fun _ =>
        bind (ih (i + 1)) fun _ => pure _

/-- Both bounds are known before the first round. -/
theorem expandBlock (b : Block) {body : Compile Text} (hbody : CutShort body) :
    CutShort (Loop.expandBlock b body) :=
  bind (bound _ _) fun _ => bind (bound _ _) fun _ => rounds _ hbody _ _

/-- Loops in loops. The recursion is on the length of the text, as in the
definition. -/
theorem expandLoops (t : Text) : CutShort (Stylesheet.expandLoops t) := by
  -- The bodies of the loops of a text are shorter than the text.
  induction hn : t.length using Nat.strongRecOn generalizing t with
  | ind n ih =>
      subst hn
      rw [Stylesheet.expandLoops]
      split
      · exact throw _
      · rename_i cut hcut
        refine fillM (f := fun b : { b // b ∈ cut.items } =>
          Loop.expandBlock b.1 (Stylesheet.expandLoops b.1.body)) ?_ cut.attach
        intro b
        apply expandBlock
        exact ih _ (Block.length_body_lt_of_cut hcut b.1 b.2) _ rfl

/-! ### Mixins -/

/-- A file of the mixin directory is read, recorded and appended. -/
theorem appendFile (path : Path) : CutShort (Mixin.appendFile path) :=
  bind (loadSource path) fun source =>
    update fun s => diagnostics_recordFile s path source.modified

/-- A directory that cannot be listed fails. -/
theorem autoInclude : CutShort Mixin.autoInclude := by
  refine read_bind (fun job => ?_) (fun _ _ => rfl)
  split
  · exact pure _
  · split
    · exact throw _
    · exact forM fun path _ => appendFile path

/-- Definitions are taken out of the text and put into the state. -/
theorem extractMixins : CutShort Mixin.extract :=
  bind get fun _ => bind (ofScan _) fun _ => update fun _ => rfl

/-- A parameter without an argument takes its default, or aborts if it has
none. What would come behind the abort is bound to it in the definition, so it
is part of the proof. -/
theorem bindParams (name : Text) (params : List Mixin.Param) (args : List Text) :
    CutShort (Mixin.bindParams name params args) := by
  induction params generalizing args with
  | nil => exact pure _
  | cons p params ih =>
      cases args with
      | cons arg args => exact bind (ih args) fun _ => pure _
      | nil =>
          unfold Mixin.bindParams
          cases p.default with
          | some default => exact bind (interpolate default) fun _ => bind (ih []) fun _ => pure _
          | none => exact bind (abort _) fun _ => bind (ih []) fun _ => pure _

/-- The arguments are constants only while the body is filled. -/
theorem instantiate (d : Mixin.Definition) (args : List Text) :
    CutShort (Mixin.instantiate d args) :=
  bind (bindParams _ _ _) fun _ => bind (withConstants _ (interpolate _)) fun _ =>
    resolveConditionals _

/-- A mixin that is not known, or that is being expanded already, is reported
and stands for nothing. `expand` is one level below. -/
theorem expandInvocation {deeper : Option (Text → Compile Text)}
    (hdeeper : ∀ expand ∈ deeper, ∀ t, CutShort (expand t)) (i : Mixin.Invocation) :
    CutShort (Mixin.expandInvocation deeper i) := by
  refine bind get fun s => ?_
  split
  · exact bind (report (by simp [Mixin.unknownDiagnostic])) fun _ => pure _
  · split
    · exact bind (report (by simp [Mixin.recursiveDiagnostic])) fun _ => pure _
    · cases deeper with
      | none => exact config_bind (fun _ => abort _) (fun _ _ => rfl)
      | some expand =>
          exact bind (instantiate _ _) fun _ =>
            bind (whileExpanding _ (hdeeper expand rfl _)) fun _ => pure _

/-- All levels, by induction on their number. -/
theorem expandMixins (levels : Nat) (t : Text) : CutShort (Mixin.expandLevels levels t) := by
  induction levels generalizing t with
  | zero =>
      refine bind (ofScan _) fun _ => fillM (expandInvocation fun expand h => ?_) _
      exact absurd h (Option.not_mem_none expand)
  | succ levels ih =>
      refine bind (ofScan _) fun _ => fillM (expandInvocation fun expand h => ?_) _
      cases h
      exact ih

/-- The stack is set first, and the number of levels is asked of the
configuration. -/
theorem expandAll (stack : List Text) (t : Text) : CutShort (Mixin.expandAll stack t) :=
  bind (update fun _ => rfl) fun _ => config_bind (fun _ => expandMixins _ t) (fun _ _ => rfl)

/-! ### Extensions and URLs -/

/-- What an extension rejects aborts. -/
theorem orReject (name : Text) (o : Extension.Occurrence) (t : Option Text) :
    CutShort (Extension.orReject name o t) := by
  cases t with
  | some t => exact pure t
  | none => exact abort _

/-- Properties first and functions after them, in the order in which they were
registered. Each fold carries the text. -/
theorem applyExtensions (registry : Extension.Registry) (t : Text) :
    CutShort (registry.apply t) := by
  refine bind (foldlM (fun t p => ?_) _ _) fun _ => foldlM (fun t f => ?_) _ _
  · exact bind get fun _ => fillM (fun _ => orReject _ _ _) _
  · exact bind get fun _ => bind (ofScan _) fun _ => fillM (fun _ => orReject _ _ _) _

/-- A file that a URL names and that is not there is reported. The URLs are
rewritten all the same. -/
theorem rewriteUrls (dir : Text) (root : Path) (t : Text) :
    CutShort (Stylesheet.rewriteUrls dir root t) := by
  refine read_bind (fun job => ?_) (fun _ _ => rfl)
  refine bind (forM fun url _ => ?_) fun _ => pure _
  exact report (by simp [Url.missingDiagnostic])

/-! ### Stages -/

/-- The threshold only cuts a stage short, in every phase. -/
def InAllPhases (stage : Stage) : Prop := ∀ phase, CutShort (stage.run phase)

/-- The stage works in two phases and does nothing in the others. -/
theorem constantsStage : InAllPhases Constants.stage := by
  intro phase
  cases phase with
  | preProcess => exact seed
  | process => exact fill
  | _ => exact pure _

/-- The stage works in three phases: it imports, it takes definitions out, and
it expands. -/
theorem mixinStage : InAllPhases Mixin.stage := by
  intro phase
  cases phase with
  | importing => exact autoInclude
  | preProcess => exact extractMixins
  | process => exact bind takeText fun _ => bind (expandAll [] _) fun _ => setText _
  | _ => exact pure _

/-- The directory comes from the path of the document. -/
theorem includesStage : InAllPhases Stage.includes := by
  intro _
  exact read_bind (fun _ => bind takeText fun _ => bind (resolveIncludes _ _) fun _ => setText _)
    (fun _ _ => rfl)

/-- The text is taken away while the loops are expanded. -/
theorem iterationStage : InAllPhases Stage.iteration := fun _ =>
  bind takeText fun _ => bind (expandLoops _) fun _ => setText _

/-- The text stays where it is while its conditionals are resolved. -/
theorem conditionalsStage : InAllPhases Stage.conditionals := fun _ =>
  bind get fun _ => bind (resolveConditionals _) fun _ => setText _

/-- Flags are decided from the state alone, and only a brace can fail. -/
theorem flagsStage : InAllPhases Stage.flags := fun _ =>
  bind get fun _ => bind (ofScan _) fun _ => setText _

/-- Declarations directly inside a grouping rule are dropped and reported. The
configuration is asked only which rules are left as they are. -/
theorem nestingStage : InAllPhases Stage.nesting := by
  intro _
  refine bind get fun _ => bind (parse _) fun nodes => ?_
  refine config_bind (fun config => ?_) (fun _ _ => rfl)
  refine bind (forM fun header _ => report ?_) fun _ => setText _
  simp [Stage.droppedDiagnostic]

/-- The registry is fixed, so the stage may have any. -/
theorem extensionsStage (registry : Extension.Registry) : InAllPhases (Stage.extensions registry) :=
  fun _ => bind get fun _ => bind (applyExtensions registry _) fun _ => setText _

/-- Without a directory for URLs the stage does nothing. -/
theorem urlsStage : InAllPhases Stage.urls := by
  intro _
  refine read_bind (fun job => ?_) (fun _ _ => rfl)
  split
  · exact pure _
  · split
    · exact pure _
    · exact bind takeText fun _ => bind (rewriteUrls _ _ _) fun _ => setText _

/-- The options of the formatter are the same under every threshold. -/
theorem formatterStage : InAllPhases Stage.formatter := by
  intro _
  exact bind get fun _ => bind (parse _) fun _ => config_bind (fun _ => setText _) (fun _ _ => rfl)

/-- Every standard stage is one of those above. -/
theorem standardStages : ∀ stage ∈ Stage.standard, InAllPhases stage := by
  intro stage h
  simp only [Stage.standard, List.mem_cons, List.not_mem_nil, or_false] at h
  rcases h with rfl | rfl | rfl | rfl | rfl | rfl | rfl | rfl | rfl | rfl | rfl
  · exact includesStage
  · exact constantsStage
  · exact fun _ => grid
  · exact iterationStage
  · exact mixinStage
  · exact conditionalsStage
  · exact flagsStage
  · exact nestingStage
  · exact extensionsStage _
  · exact urlsStage
  · exact formatterStage

/-- All phases of a list of stages, each of which is only cut short. -/
theorem runAll {stages : List Stage} (h : ∀ stage ∈ stages, InAllPhases stage) :
    CutShort (Stage.runAll stages) := by
  refine forM fun phase _ => forM fun stage hstage => ?_
  exact h stage (List.mem_filter.mp hstage).1 phase

end CutShort

/-! ### Compilations -/

/-- What a threshold makes of the outcome `full` that a compilation has
under the threshold zero: `cut` is its outcome under the threshold. -/
structure CutAt (threshold : Nat) (full cut : Except Error Compiled) : Prop where
  /-- Without a diagnostic at or below the threshold nothing changes. -/
  same : ∀ c, full = .ok c → (∀ d ∈ c.diagnostics, threshold < d.severity.level) → cut = .ok c
  /-- Otherwise the first such diagnostic ends the compilation. -/
  promoted : ∀ c before d after, full = .ok c → c.diagnostics = before ++ d :: after →
    (∀ b ∈ before, threshold < b.severity.level) → d.severity.level ≤ threshold →
    cut = .error (.fatal d.promoted)
  /-- A failure stays a failure, perhaps for a reason that comes before. -/
  failed : ∀ e, full = .error e →
    cut = .error e ∨ ∃ d : Diagnostic, d.severity ≠ .fatal ∧ cut = .error (.fatal d.promoted)

/-- A compilation that fails under the threshold zero makes no promise about
diagnostics, so only the failure has to be explained. -/
theorem CutAt.of_error {threshold : Nat} {e : Error} {cut : Except Error Compiled}
    (h : cut = .error e
      ∨ ∃ d : Diagnostic, d.severity ≠ .fatal ∧ cut = .error (.fatal d.promoted)) :
    CutAt threshold (.error e) cut where
  same _ hc := nomatch hc
  promoted _ _ _ _ hc := nomatch hc
  failed e' he := by
    cases he
    exact h

namespace Compiler

/-- The compiler of standard stages with a configuration under a
threshold. -/
def atThreshold (config : Config) (threshold : Nat) : Compiler :=
  { config := { config with errorThreshold := threshold } }

/-- Flags and options are set before anything can be reported. -/
theorem diagnostics_start (c : Compiler) (tree : FileTree) (flags options : List Text)
    (source : Source) : (c.start tree flags options source).diagnostics = [] := by
  -- Flags and options are set without a report.
  have hflags : ∀ (l : List Text) (s : State),
      (l.foldl (State.activateFlag c.config) s).diagnostics = s.diagnostics := by
    intro l
    induction l with
    | nil => intro s; rfl
    | cons name l ih =>
        intro s
        rw [List.foldl_cons, ih]
        unfold State.activateFlag
        split <;> rfl
  have hoptions : ∀ (l : List Text) (s : State),
      (l.foldl State.setOption s).diagnostics = s.diagnostics := by
    intro l
    induction l with
    | nil => intro s; rfl
    | cons name l ih =>
        intro s
        rw [List.foldl_cons, ih]
        rfl
  unfold start
  rw [hoptions, hflags, CutShort.diagnostics_recordFile]
  rfl

/-- The outcome of a run of the stages. -/
def outcome : EStateM.Result Error State Unit → Except Error Compiled
  | .ok _ s => .ok ⟨s.text, s.lastModified, s.diagnostics⟩
  | .error e _ => .error e

/-- A compilation under a threshold is the outcome of a run. The state at its
start does not have the threshold in it, so it is written with the threshold
zero on both sides. -/
theorem compile_eq_outcome (config : Config) (tree : FileTree) (flags options : List Text)
    (source : Source) (threshold : Nat) :
    (atThreshold config threshold).compile tree flags options source
      = outcome ((Stage.runAll Stage.standard).run
          (Job.withThreshold ⟨source.path, config, tree⟩ threshold)
          ((atThreshold config 0).start tree flags options source)) := rfl

/-- What holds of the runs holds of their outcomes. The run starts without
diagnostics, so what it leaves behind is just what it reports. -/
theorem cutAt_outcome {threshold : Nat} {s : State} {new : List Diagnostic}
    {full cut : EStateM.Result Error State Unit} (h : Follows threshold s new full cut)
    (hs : s.diagnostics = []) : CutAt threshold (outcome full) (outcome cut) := by
  have hnew : (endState full).diagnostics = new := by
    rw [h.diagnostics_eq, hs, List.nil_append]
  -- The run that is not cut fails, and then nothing more is claimed, or it succeeds, and the
  -- first report at the threshold decides.
  cases full with
  | error e s' =>
      refine .of_error ?_
      cases hfirst : firstAbort? threshold new with
      | none =>
          left
          rw [h.eq_of_none hfirst]
          rfl
      | some d =>
          right
          obtain ⟨s'', hcut⟩ := h.abort_of_some d hfirst
          exact ⟨d, h.not_fatal d (List.mem_of_find?_eq_some hfirst), by rw [hcut]; rfl⟩
  | ok a s' =>
      subst hnew
      refine ⟨?_, ?_, fun e he => nomatch he⟩
      · intro c hc hlevel
        cases hc
        have hnone : firstAbort? threshold s'.diagnostics = none := by
          refine List.find?_eq_none.mpr fun d hd => ?_
          have := hlevel d hd
          simp only [decide_eq_true_eq]
          omega
        rw [h.eq_of_none hnone]
        rfl
      · intro c before d after hc hsplit hbefore hlevel
        cases hc
        have hsome : firstAbort? threshold s'.diagnostics = some d := by
          refine List.find?_eq_some_iff_append.mpr
            ⟨by simpa using hlevel, before, after, hsplit, ?_⟩
          intro b hb
          simpa using hbefore b hb
        obtain ⟨s'', hcut⟩ := h.abort_of_some d hsome
        rw [hcut]
        rfl

/-- The threshold cuts the compilation of a source short. -/
theorem cutAt_compile (config : Config) (tree : FileTree) (flags options : List Text)
    (source : Source) (threshold : Nat) :
    CutAt threshold ((atThreshold config 0).compile tree flags options source)
      ((atThreshold config threshold).compile tree flags options source) := by
  obtain ⟨new, h⟩ := CutShort.runAll CutShort.standardStages ⟨source.path, config, tree⟩ threshold
    ((atThreshold config 0).start tree flags options source)
  rw [compile_eq_outcome, compile_eq_outcome]
  exact cutAt_outcome h (diagnostics_start _ tree flags options source)

/-- **The threshold only cuts a compilation short**, of a source as of a
file. -/
theorem compile_cutShort (config : Config) (tree : FileTree) (flags options : List Text)
    (threshold : Nat) :
    (∀ source, CutAt threshold ((atThreshold config 0).compile tree flags options source)
        ((atThreshold config threshold).compile tree flags options source))
      ∧ ∀ path, CutAt threshold ((atThreshold config 0).compileFile tree flags options path)
        ((atThreshold config threshold).compileFile tree flags options path) := by
  refine ⟨fun source => cutAt_compile config tree flags options source threshold, fun path => ?_⟩
  unfold compileFile
  cases Source.load tree path with
  | ok source => exact cutAt_compile config tree flags options source threshold
  | error e => exact .of_error (.inl rfl)

end Compiler

end Stylesheet
