import Stylesheet.Compilation

/-!
# Runs of actions

An action of a compilation is a function of the job and the state, and a
run of it ends with a value or an error, in some state. Here stand the
runs of the actions from which the stages are put together: one action
after another (`run_bind`), a report, and an action with a change of the
state around it that is undone whatever happens (`run_withConstants`,
`run_whileExpanding`).
-/

set_option autoImplicit false

namespace Stylesheet

/-- The state in which a run ended. -/
def endState {ε σ α : Type} : EStateM.Result ε σ α → σ
  | .ok _ s => s
  | .error _ s => s

/-- A run whose last state is changed. -/
def mapState {ε σ α : Type} (f : σ → σ) : EStateM.Result ε σ α → EStateM.Result ε σ α
  | .ok a s => .ok a (f s)
  | .error e s => .error e (f s)

/-- The last state of a run whose last state is changed. -/
@[simp] theorem endState_mapState {ε σ α : Type} (f : σ → σ) (r : EStateM.Result ε σ α) :
    endState (mapState f r) = f (endState r) := by
  cases r <;> rfl

namespace State

/-- The state with more diagnostics at the end. -/
def reported (s : State) (new : List Diagnostic) : State :=
  { s with diagnostics := s.diagnostics ++ new }

/-- Reporting nothing changes nothing. -/
@[simp] theorem reported_nil (s : State) : s.reported [] = s := by
  simp [reported]

/-- Reports are added one after the other. -/
@[simp] theorem reported_reported (s : State) (new more : List Diagnostic) :
    (s.reported new).reported more = s.reported (new ++ more) := by
  simp [reported]

/-- The state with one mixin more being expanded. -/
def push (s : State) (name : Text) : State := { s with expanding := s.expanding ++ [name] }

/-- The state without the innermost mixin that is being expanded. -/
def pop (s : State) : State := { s with expanding := s.expanding.dropLast }

/-- What is reported while a mixin is being expanded stays behind it. -/
@[simp] theorem pop_reported_push (s : State) (name : Text) (new : List Diagnostic) :
    ((s.push name).reported new).pop = s.reported new := by
  simp [push, reported, pop]

end State

variable {α β : Type}

/-- A run of two actions, the second from where the first one ended. -/
theorem run_bind (x : Compile α) (k : α → Compile β) (job : Job) (s : State) :
    (x >>= k).run job s
      = match x.run job s with
        | .ok a s' => (k a).run job s'
        | .error e s' => .error e s' := by
  show EStateM.bind (x.run job) (fun a => (k a).run job) s = _
  unfold EStateM.bind
  cases x.run job s <;> rfl

/-- The same if the first one succeeds. -/
theorem run_bind_ok {x : Compile α} {job : Job} {s s₁ : State} {a : α}
    (hx : x.run job s = .ok a s₁) (k : α → Compile β) :
    (x >>= k).run job s = (k a).run job s₁ := by
  rw [run_bind, hx]

/-- Looking at the state gives it. -/
theorem run_get (job : Job) (s : State) : (MonadState.get : Compile State).run job s = .ok s s :=
  rfl

/-- If two actions succeed one after the other, both do. -/
theorem exists_of_run_bind {x : Compile α} {k : α → Compile β} {job : Job} {s s' : State} {b : β}
    (h : (x >>= k).run job s = .ok b s') :
    ∃ a s₁, x.run job s = .ok a s₁ ∧ (k a).run job s₁ = .ok b s' := by
  rw [run_bind] at h
  cases hx : x.run job s with
  | error e s₁ => simp [hx] at h
  | ok a s₁ => exact ⟨a, s₁, rfl, by simpa [hx] using h⟩

/-- A loop over a list, if its first round succeeds. -/
theorem run_forM_cons {f : α → Compile Unit} {a : α} {job : Job} {s s₁ : State}
    (ha : (f a).run job s = .ok () s₁) (as : List α) :
    ((a :: as).forM f).run job s = (as.forM f).run job s₁ :=
  run_bind_ok ha fun _ => as.forM f

/-- The change at the end is made behind an error too. -/
theorem run_finally (x : Compile α) (f : State → State) (job : Job) (s : State) :
    (tryFinally x (modify f : Compile Unit)).run job s = mapState f (x.run job s) := by
  show tryFinally (x.run job) (modify f : EStateM Error State Unit) s = _
  simp only [tryFinally, MonadFinally.tryFinally', Functor.map]
  cases h : x.run job s with
  | ok a s' =>
      simp only [EStateM.map, h]
      rfl
  | error e s' =>
      simp only [EStateM.map, h]
      rfl

namespace Compile

/-- A report aborts, or adds one diagnostic. -/
theorem run_report (d : Diagnostic) (job : Job) (s : State) :
    (report d).run job s
      = if d.severity.abortsAt job.config.errorThreshold
        then .error (.fatal (d.located job.path).promoted) s
        else .ok () (s.reported [d.located job.path]) := by
  show (if d.severity.abortsAt job.config.errorThreshold then abort d
    else modify fun s => { s with diagnostics := s.diagnostics ++ [d.located job.path] }
    : Compile Unit).run job s = _
  split <;> rfl

/-- Reading blocks leaves the state as it is. -/
theorem eq_of_run_ofScan {r : Except ScanError α} {job : Job} {s s' : State} {a : α}
    (h : (ofScan r).run job s = .ok a s') : r = .ok a ∧ s = s' := by
  cases r with
  | error e => cases h
  | ok b =>
      cases h
      exact ⟨rfl, rfl⟩

/-- So does reading a stylesheet. -/
theorem eq_of_run_parse {t : Text} {job : Job} {s s' : State} {nodes : List Node}
    (h : (Compile.parse t).run job s = .ok nodes s') : Node.parse t = .ok nodes ∧ s' = s := by
  unfold Compile.parse at h
  cases hparse : Node.parse t with
  | ok found =>
      rw [hparse] at h
      cases h
      exact ⟨rfl, rfl⟩
  | error e =>
      rw [hparse] at h
      cases e <;> cases h

/-- And so does filling placeholders, which looks at the constants. -/
theorem eq_of_run_interpolate {t out : Text} {job : Job} {s s' : State}
    (h : (interpolate t).run job s = .ok out s') :
    Placeholder.interpolate s.constants t = .ok out ∧ s = s' := by
  have hrun : (interpolateWith s.constants t).run job s = .ok out s' := h
  unfold interpolateWith at hrun
  cases hfilled : Placeholder.interpolate s.constants t with
  | error e =>
      rw [hfilled] at hrun
      cases hrun
  | ok t' =>
      rw [hfilled] at hrun
      cases hrun
      exact ⟨rfl, rfl⟩

/-- An action with constants set around it. Behind it they are what they were,
also behind an error. -/
theorem run_withConstants (pairs : List (Text × Text)) (x : Compile α) (job : Job) (s : State) :
    (withConstants pairs x).run job s
      = mapState
          (fun s' => { s' with constants := s'.constants.restore (s.constants.shadow pairs).2 })
          (x.run job { s with constants := (s.constants.shadow pairs).1 }) :=
  run_finally x _ job _

/-- An action with a name on the stack, which is taken from it behind an error
too. -/
theorem run_whileExpanding (name : Text) (x : Compile α) (job : Job) (s : State) :
    (whileExpanding name x).run job s = mapState State.pop (x.run job (s.push name)) :=
  run_finally x State.pop job (s.push name)

end Compile

/-! ### Filling a cut text -/

namespace Cut

variable {f : α → Compile Text} {cut : Cut α} {job : Job} {s s₁ s₂ : State} {new t : Text}

/-- A text without items is filled as it is. -/
theorem run_fillM_whole (f : α → Compile Text) (t : Text) (job : Job) (s : State) :
    ((whole t).fillM f).run job s = .ok t s :=
  rfl

/-- Text in front is kept. -/
theorem run_fillM_prepend (front : Text) (h : (cut.fillM f).run job s = .ok t s₁) :
    ((cut.prepend front).fillM f).run job s = .ok (front ++ t) s₁ := by
  obtain ⟨parts, rest⟩ := cut
  cases parts with
  | nil =>
      cases h
      rfl
  | cons part parts =>
      obtain ⟨gap, a⟩ := part
      obtain ⟨new, s', ha, h⟩ := exists_of_run_bind h
      obtain ⟨others, s'', hrest, h⟩ := exists_of_run_bind h
      cases h
      simp only [fillM, fillParts, prepend, run_bind, ha, hrest, List.append_assoc]
      rfl

/-- The item in front is filled first. -/
theorem run_fillM_item {a : α} (ha : (f a).run job s = .ok new s₁)
    (h : (cut.fillM f).run job s₁ = .ok t s₂) :
    ((cut.item a).fillM f).run job s = .ok (new ++ t) s₂ := by
  have hrest : (fillParts f cut.rest cut.parts).run job s₁ = .ok t s₂ := h
  simp only [fillM, item, fillParts]
  rw [run_bind_ok ha, run_bind_ok hrest]
  rfl

end Cut

end Stylesheet
