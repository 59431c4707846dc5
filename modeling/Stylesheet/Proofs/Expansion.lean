import Stylesheet.Mixin.Expansion
import Stylesheet.Proofs.Run

/-!
# Mixin expansion leaves the state as it found it

Expanding a mixin writes its parameters into the table of constants and
its name on the stack, and takes both back. `expandAll_endState` says that
nothing of this is left, whether the expansion succeeds or fails, and at
whatever depth it fails: the state at the end is the state at the start
with some diagnostics more, and those are about mixins that are unknown or
recursive.

Two things come together in it. On the side of tables, `restore_shadow`:
what `shadow` has set, `restore` takes back, name for name and in the same
places, also if a name was set twice. On the side of actions there is a
property that is closed under all that expansion is put together from,
`OnlyReports`: whatever such an action does, it ends in the state it
started from, apart from reports.
-/

set_option autoImplicit false

namespace Stylesheet

/-! ### Setting names and putting them back -/

namespace Table

variable {α : Type}

/-- A table is its entries; that their names are different is a proof and makes
no difference. -/
theorem eq_of_entries {t u : Table α} (h : t.entries = u.entries) : t = u := by
  cases t
  cases u
  simpa using h

/-- A name that is set twice has the second value, at the place of the first. -/
theorem setEntry_setEntry (name : Text) (v w : α) (es : List (Text × α)) :
    setEntry name v (setEntry name w es) = setEntry name v es := by
  induction es with
  | nil => simp [setEntry]
  | cons e es ih =>
      obtain ⟨n, u⟩ := e
      by_cases h : n = name
      · simp [setEntry, h]
      · simp [setEntry, h, ih]

/-- Giving a name the value that it has changes nothing. -/
theorem setEntry_lookup {name : Text} {v : α} {es : List (Text × α)}
    (h : es.lookup name = some v) : setEntry name v es = es := by
  induction es with
  | nil => simp at h
  | cons e es ih =>
      obtain ⟨n, u⟩ := e
      by_cases hn : n = name
      · subst hn
        obtain rfl : u = v := by simpa using h
        simp [setEntry]
      · have hne : (name == n) = false := by simpa using Ne.symm hn
        rw [List.lookup_cons, hne] at h
        simp [setEntry, hn, ih h]

/-- A new name goes to the end, where erasing it leaves no trace. -/
theorem filter_setEntry {name : Text} {es : List (Text × α)} (h : es.lookup name = none) (v : α) :
    (setEntry name v es).filter (fun e => e.1 != name) = es := by
  induction es with
  | nil => simp [setEntry]
  | cons e es ih =>
      obtain ⟨n, u⟩ := e
      cases hne : name == n with
      | true => simp [List.lookup_cons, hne] at h
      | false =>
          have hn : ¬ n = name := by
            rintro rfl
            simp at hne
          rw [List.lookup_cons, hne] at h
          simp [setEntry, hn, ih h]

/-- One name is set and put back. -/
theorem putBack_set (t : Table α) (name : Text) (v : α) :
    (t.set name v).putBack name (t.get? name) = t := by
  apply eq_of_entries
  cases h : t.get? name with
  | some old =>
      show setEntry name old (setEntry name v t.entries) = t.entries
      rw [setEntry_setEntry, setEntry_lookup h]
  | none => exact filter_setEntry h v

/-- Several names are set and put back, in the reverse order. A name that
is set twice is first given its first new value again, and then its old
one. -/
theorem restore_shadow (t : Table α) (pairs : List (Text × α)) :
    (t.shadow pairs).1.restore (t.shadow pairs).2 = t := by
  -- The loop of `shadow`, with what has been saved before it.
  have key : ∀ (t : Table α) (saved : List (Text × Option α)),
      let r := pairs.foldl
        (fun r p => (r.1.set p.1 p.2, (p.1, r.1.get? p.1) :: r.2)) (t, saved)
      r.1.restore r.2 = t.restore saved := by
    induction pairs with
    | nil =>
        intro t saved
        rfl
    | cons p pairs ih =>
        intro t saved
        have hrest := ih (t.set p.1 p.2) ((p.1, t.get? p.1) :: saved)
        have hback : (t.set p.1 p.2).restore ((p.1, t.get? p.1) :: saved) = t.restore saved := by
          show ((t.set p.1 p.2).putBack p.1 (t.get? p.1)).restore saved = _
          rw [putBack_set]
        exact hrest.trans hback
  exact key t []

end Table

/-! ### Actions that only report -/

/-- An action that ends, with a value or an error, in the state it started
from, apart from reports that `P` holds of. -/
def OnlyReports {α : Type} (P : Diagnostic → Prop) (x : Compile α) : Prop :=
  ∀ (job : Job) (s : State), ∃ new : List Diagnostic,
    (∀ d ∈ new, P d) ∧ endState (x.run job s) = s.reported new

namespace OnlyReports

variable {α β : Type} {P : Diagnostic → Prop}

/-- An action that reports nothing. -/
theorem silent {x : Compile α} (h : ∀ job s, endState (x.run job s) = s) : OnlyReports P x := by
  intro job s
  exact ⟨[], by simp, by rw [h, State.reported_nil]⟩

/-- Giving a value reports nothing. -/
theorem pure (a : α) : OnlyReports P (Pure.pure a : Compile α) := silent fun _ _ => rfl

/-- Looking at the state does not change it. -/
theorem get : OnlyReports P (MonadState.get : Compile State) := silent fun _ _ => rfl

/-- Looking at the configuration does not change the state. -/
theorem config : OnlyReports P Compile.config := silent fun _ _ => rfl

/-- The diagnostic of an abort is in the error and not left behind. -/
theorem abort (d : Diagnostic) : OnlyReports P (Compile.abort d : Compile α) :=
  silent fun _ _ => rfl

/-- A failure leaves nothing behind. -/
theorem throw (e : Error) : OnlyReports P (MonadExcept.throw e : Compile α) :=
  silent fun _ _ => rfl

/-- What the second action reports comes behind what the first one
reports. -/
theorem bind {x : Compile α} {k : α → Compile β} (hx : OnlyReports P x)
    (hk : ∀ a, OnlyReports P (k a)) : OnlyReports P (x >>= k) := by
  intro job s
  obtain ⟨new, hnew, hstate⟩ := hx job s
  rw [run_bind]
  cases hrun : x.run job s with
  | error e s₁ =>
      rw [hrun] at hstate
      exact ⟨new, hnew, hstate⟩
  | ok a s₁ =>
      rw [hrun] at hstate
      obtain rfl : s₁ = s.reported new := hstate
      obtain ⟨more, hmore, hstate'⟩ := hk a job (s.reported new)
      refine ⟨new ++ more, ?_, ?_⟩
      · intro d hd
        rcases List.mem_append.mp hd with hd | hd
        · exact hnew d hd
        · exact hmore d hd
      · rw [← State.reported_reported]
        exact hstate'

/-- A report adds its diagnostic, or aborts and adds nothing. The diagnostic is
given a path on the way, so `P` has to hold of it with any. -/
theorem report {d : Diagnostic} (hd : ∀ path, P (d.located path)) :
    OnlyReports P (Compile.report d) := by
  intro job s
  rw [Compile.run_report]
  split
  · exact ⟨[], by simp, by simp [endState]⟩
  · exact ⟨[d.located job.path], by simpa using hd job.path, rfl⟩

/-- Reading blocks changes nothing, whether it succeeds or not. -/
theorem ofScan (x : Except ScanError α) : OnlyReports P (Compile.ofScan x) := by
  cases x with
  | ok a => exact pure a
  | error e => exact throw _

/-- Filling items from left to right reports what each of them does. -/
theorem fillM {f : α → Compile Text} (hf : ∀ a, OnlyReports P (f a)) (cut : Cut α) :
    OnlyReports P (cut.fillM f) := by
  obtain ⟨parts, rest⟩ := cut
  unfold Cut.fillM
  induction parts with
  | nil => exact pure _
  | cons part parts ih => exact bind (hf part.2) fun _ => bind ih fun _ => pure _

/-- The constants that were set around an action are back behind it. -/
theorem withConstants (pairs : List (Text × Text)) {x : Compile α} (hx : OnlyReports P x) :
    OnlyReports P (Compile.withConstants pairs x) := by
  intro job s
  obtain ⟨new, hnew, hstate⟩ := hx job { s with constants := (s.constants.shadow pairs).1 }
  refine ⟨new, hnew, ?_⟩
  rw [Compile.run_withConstants, endState_mapState, hstate]
  show { s.reported new with
      constants := (s.constants.shadow pairs).1.restore (s.constants.shadow pairs).2 } = _
  rw [Table.restore_shadow]
  rfl

/-- The name that was put on the stack for an action is off it again. -/
theorem whileExpanding (name : Text) {x : Compile α} (hx : OnlyReports P x) :
    OnlyReports P (Compile.whileExpanding name x) := by
  intro job s
  obtain ⟨new, hnew, hstate⟩ := hx job (s.push name)
  refine ⟨new, hnew, ?_⟩
  rw [Compile.run_whileExpanding, endState_mapState, hstate, State.pop_reported_push]

/-- A placeholder without a value aborts. -/
theorem interpolate (t : Text) : OnlyReports P (Compile.interpolate t) := by
  refine bind get fun s => ?_
  unfold Compile.interpolateWith
  split
  · exact pure _
  · exact abort _

/-- A condition that cannot be decided aborts. -/
theorem resolveConditionals (t : Text) : OnlyReports P (Compile.resolveConditionals t) := by
  unfold Compile.resolveConditionals
  split
  · exact pure _
  · exact abort _
  · exact throw _
  · exact throw _

end OnlyReports

namespace Mixin

/-! ### What expansion reports -/

/-- The diagnostics that expansion leaves behind. -/
def IsDropped (d : Diagnostic) : Prop := d.code = some "S-3-2" ∨ d.code = some "S-3-3"

/-- The path of a diagnostic has nothing to do with its code. -/
theorem code_located (d : Diagnostic) (path : Path) : (d.located path).code = d.code := by
  unfold Diagnostic.located
  split <;> rfl

/-- A mixin that is not known is one of the two reports. -/
theorem isDropped_unknown (name : Text) (path : Path) :
    IsDropped ((unknownDiagnostic name).located path) :=
  .inl (code_located _ path)

/-- A mixin that is being expanded already is the other one. -/
theorem isDropped_recursive (stack : List Text) (name : Text) (path : Path) :
    IsDropped ((recursiveDiagnostic stack name).located path) :=
  .inr (code_located _ path)

/-- Binding parameters fills defaults or aborts, and it reports nothing at all. -/
theorem onlyReports_bindParams {P : Diagnostic → Prop} (name : Text) (params : List Param)
    (args : List Text) : OnlyReports P (bindParams name params args) := by
  induction params generalizing args with
  | nil => exact .pure _
  | cons p params ih =>
      cases args with
      | cons arg args => exact .bind (ih args) fun _ => .pure _
      | nil =>
          unfold bindParams
          cases p.default with
          | some default =>
              exact .bind (.interpolate default) fun _ => .bind (ih []) fun _ => .pure _
          | none => exact .bind (.abort _) fun _ => .bind (ih []) fun _ => .pure _

/-- The parameters are constants for a while, and back to what they were behind
it. -/
theorem onlyReports_instantiate {P : Diagnostic → Prop} (d : Definition) (args : List Text) :
    OnlyReports P (instantiate d args) :=
  .bind (onlyReports_bindParams _ _ _) fun _ =>
    .bind (.withConstants _ (.interpolate _)) fun _ => .resolveConditionals _

/-- One invocation. `hdeeper` is about the level below, to which a known mixin
goes on. -/
theorem onlyReports_expandInvocation {deeper : Option (Text → Compile Text)}
    (hdeeper : ∀ expand ∈ deeper, ∀ t, OnlyReports IsDropped (expand t)) (i : Invocation) :
    OnlyReports IsDropped (expandInvocation deeper i) := by
  refine .bind .get fun s => ?_
  split
  · exact .bind (.report (isDropped_unknown _)) fun _ => .pure _
  · split
    · exact .bind (.report (isDropped_recursive _ _)) fun _ => .pure _
    · cases deeper with
      | none => exact .bind .config fun _ => .abort _
      | some expand =>
          exact .bind (onlyReports_instantiate _ _) fun _ =>
            .bind (.whileExpanding _ (hdeeper expand rfl _)) fun _ => .pure _

/-- All invocations of a text. -/
theorem onlyReports_expandWith {deeper : Option (Text → Compile Text)}
    (hdeeper : ∀ expand ∈ deeper, ∀ t, OnlyReports IsDropped (expand t)) (t : Text) :
    OnlyReports IsDropped (expandWith deeper t) :=
  .bind (.ofScan _) fun _ => .fillM (onlyReports_expandInvocation hdeeper) _

/-- All levels, by induction on their number. -/
theorem onlyReports_expandLevels (levels : Nat) (t : Text) :
    OnlyReports IsDropped (expandLevels levels t) := by
  induction levels generalizing t with
  | zero =>
      refine onlyReports_expandWith (fun expand h => ?_) t
      exact absurd h (Option.not_mem_none expand)
  | succ levels ih =>
      refine onlyReports_expandWith (fun expand h => ?_) t
      cases h
      exact ih

/-- What expands a text below a number of levels, if one of them is left. -/
def below : Nat → Option (Text → Compile Text)
  | 0 => none
  | levels + 1 => some (expandLevels levels)

/-- Both equations of the recursion in one. -/
theorem expandLevels_eq (levels : Nat) (t : Text) :
    expandLevels levels t = expandWith (below levels) t := by
  cases levels <;> rfl

/-- An invocation with any number of levels below it. -/
theorem onlyReports_below (levels : Nat) (i : Invocation) :
    OnlyReports IsDropped (expandInvocation (below levels) i) := by
  refine onlyReports_expandInvocation (fun expand h => ?_) i
  cases levels with
  | zero => exact absurd h (Option.not_mem_none expand)
  | succ levels =>
      cases h
      exact onlyReports_expandLevels levels

/-- The stack is set, and as many levels are left as it leaves room for. -/
theorem run_expandAll (stack : List Text) (t : Text) (job : Job) (s : State) :
    (expandAll stack t).run job s
      = (expandLevels (job.config.maxMixinDepth - stack.length) t).run job
          { s with expanding := stack } := rfl

/-- **Expansion leaves the state as it found it.** However the expansion of
a text ends, the stack is the one that it was given, the constants are
those from before, with their values and in their order, and so is
everything else but the diagnostics. These are only added to, at the end. -/
theorem expandAll_endState (job : Job) (stack : List Text) (t : Text) (s : State) :
    ∃ new : List Diagnostic,
      (∀ d ∈ new, d.code = some "S-3-2" ∨ d.code = some "S-3-3")
      ∧ endState ((expandAll stack t).run job s)
        = { s with expanding := stack, diagnostics := s.diagnostics ++ new } := by
  rw [run_expandAll]
  exact onlyReports_expandLevels _ t job { s with expanding := stack }

end Mixin

end Stylesheet
