import Stylesheet.Proofs.Expansion

/-!
# How an invocation runs

Filling in a template needs the job and the constants and nothing else:
not the stack, not the other mixins, and not what was expanded before. So
it has a value by the constants alone, `templateOf`, and that value is what
every run of it gives (`run_instantiate`). The parameters are set among the
constants for as long as the template is filled in and not a moment
longer, which is why `templateOf` can be told without a state.

With it, what an invocation does is one of four things. It is removed
because its mixin is unknown or is being expanded already, it ends the
compilation because no level is left, or it stands for the expansion of its
template one level further down. The four equations at the end say so, and
the properties of expansion are proved from them without opening
`expandInvocation` again.
-/

set_option autoImplicit false

namespace Stylesheet

/-- Promotion keeps the code. -/
theorem Diagnostic.code_promoted (d : Diagnostic) : d.promoted.code = d.code := by
  unfold promoted
  split <;> rfl

/-! ### Actions that need the constants only -/

/-- A run that ends in the state `s`. -/
def ended {α : Type} (s : State) : Except Error α → EStateM.Result Error State α
  | .ok a => .ok a s
  | .error e => .error e s

/-- What an action gives in a state that has some constants and is empty
otherwise. -/
def Compile.valueOn {α : Type} (x : Compile α) (job : Job) (constants : Table Text) :
    Except Error α :=
  match x.run job { constants } with
  | .ok a _ => .ok a
  | .error e _ => .error e

/-- The action looks at nothing in the state but the constants and changes
nothing. When it fails, it is not because levels have run out. -/
structure ByConstants {α : Type} (x : Compile α) : Prop where
  run_eq : ∀ job s, x.run job s = ended s (x.valueOn job s.constants)
  code_ne : ∀ job constants e, x.valueOn job constants = .error e →
    e.diagnostic.code ≠ some "S-3-4"

namespace ByConstants

variable {α β : Type}

/-- An action that is told as a function of the constants. -/
theorem of_run {x : Compile α} (f : Job → Table Text → Except Error α)
    (hrun : ∀ job s, x.run job s = ended s (f job s.constants))
    (hcode : ∀ job constants e, f job constants = .error e → e.diagnostic.code ≠ some "S-3-4") :
    ByConstants x := by
  have hvalue : ∀ job constants, x.valueOn job constants = f job constants := by
    intro job constants
    unfold Compile.valueOn
    rw [hrun]
    cases f job constants <;> rfl
  refine ⟨?_, ?_⟩
  · intro job s
    rw [hvalue, hrun]
  · intro job constants e he
    rw [hvalue] at he
    exact hcode job constants e he

/-- A value looks at nothing. -/
theorem pure (a : α) : ByConstants (Pure.pure a : Compile α) :=
  of_run (fun _ _ => .ok a) (fun _ _ => rfl) (fun _ _ _ h => nomatch h)

/-- An abort looks at nothing. Its code matters, since running out of levels is
told apart by it. -/
theorem abort {d : Diagnostic} (hd : d.code ≠ some "S-3-4") :
    ByConstants (Compile.abort d : Compile α) := by
  refine of_run (fun job _ => .error (.fatal (d.located job.path).promoted)) (fun _ _ => rfl) ?_
  intro job constants e he
  cases he
  show (d.located job.path).promoted.code ≠ _
  rw [Diagnostic.code_promoted, Mixin.code_located]
  exact hd

/-- So does a failure. -/
theorem throw {e : Error} (he : e.diagnostic.code ≠ some "S-3-4") :
    ByConstants (MonadExcept.throw e : Compile α) := by
  refine of_run (fun _ _ => .error e) (fun _ _ => rfl) ?_
  intro job constants e' he'
  cases he'
  exact he

/-- Actions one after the other look at the constants if both do. -/
theorem bind {x : Compile α} {k : α → Compile β} (hx : ByConstants x)
    (hk : ∀ a, ByConstants (k a)) : ByConstants (x >>= k) := by
  refine of_run (fun job constants => x.valueOn job constants >>= fun a => (k a).valueOn job constants)
    ?_ ?_
  · intro job s
    rw [run_bind, hx.run_eq]
    cases x.valueOn job s.constants with
    | error e => rfl
    | ok a => exact (hk a).run_eq job s
  · intro job constants e he
    cases hvalue : x.valueOn job constants with
    | error e' =>
        rw [hvalue] at he
        cases he
        exact hx.code_ne job constants e hvalue
    | ok a =>
        rw [hvalue] at he
        exact (hk a).code_ne job constants e he

/-- Placeholders are filled from the constants. -/
theorem interpolate (t : Text) : ByConstants (Compile.interpolate t) := by
  -- The constants are read first; what follows is a fixed value or a fixed failure.
  have hwith : ∀ constants, ByConstants (Compile.interpolateWith constants t) := by
    intro constants
    unfold Compile.interpolateWith
    split
    · exact pure _
    · exact abort (by simp [MissingConstant.diagnostic])
  refine of_run (fun job constants => (Compile.interpolateWith constants t).valueOn job constants)
    ?_ (fun job constants => (hwith constants).code_ne job constants)
  intro job s
  exact (hwith s.constants).run_eq job s

/-- Conditions are decided by the constants. -/
theorem resolveConditionals (t : Text) : ByConstants (Compile.resolveConditionals t) := by
  unfold Compile.resolveConditionals
  split
  · exact pure _
  · exact abort (by simp [noOperatorDiagnostic])
  · exact throw (by simp [Error.diagnostic])
  · exact throw (by simp [Error.diagnostic])

/-- With constants set around it, the action sees these and those below
them, and the state it ends in has the old ones. -/
theorem withConstants (pairs : List (Text × Text)) {x : Compile α} (hx : ByConstants x) :
    ByConstants (Compile.withConstants pairs x) := by
  refine of_run (fun job constants => x.valueOn job (constants.shadow pairs).1) ?_
    (fun job constants => hx.code_ne job _)
  intro job s
  have hback : ({ s with constants :=
      (s.constants.shadow pairs).1.restore (s.constants.shadow pairs).2 } : State) = s := by
    rw [Table.restore_shadow]
  rw [Compile.run_withConstants, hx.run_eq]
  cases x.valueOn job (s.constants.shadow pairs).1 with
  | ok a => exact congrArg (EStateM.Result.ok a) hback
  | error e => exact congrArg (EStateM.Result.error e) hback

end ByConstants

namespace Mixin

/-- A parameter gets its argument, or its default with the placeholders in it
filled. -/
theorem byConstants_bindParams (name : Text) (params : List Param) (args : List Text) :
    ByConstants (bindParams name params args) := by
  induction params generalizing args with
  | nil => exact .pure _
  | cons p params ih =>
      cases args with
      | cons arg args => exact .bind (ih args) fun _ => .pure _
      | nil =>
          unfold bindParams
          cases p.default with
          | some default =>
              exact .bind (.interpolate default) fun _ => .bind (ih []) fun _ => .pure _
          | none =>
              have habort : ByConstants
                  (Compile.abort (missingParamDiagnostic name p.name) : Compile Text) :=
                .abort (by simp [missingParamDiagnostic])
              exact .bind habort fun _ => .bind (ih []) fun _ => .pure _

/-- The template of a mixin is filled and its conditions are decided, with the
parameters among the constants. -/
theorem byConstants_instantiate (d : Definition) (args : List Text) :
    ByConstants (instantiate d args) :=
  .bind (byConstants_bindParams _ _ _) fun _ =>
    .bind (.withConstants _ (.interpolate _)) fun _ => .resolveConditionals _

/-- The text that a mixin stands for when it is given arguments, by the
constants of the document alone. Invocations in it are not expanded. -/
def templateOf (job : Job) (constants : Table Text) (d : Definition) (args : List Text) :
    Except Error Text :=
  (instantiate d args).valueOn job constants

/-- Instantiating a mixin gives its template and leaves the state as it is. -/
theorem run_instantiate (d : Definition) (args : List Text) (job : Job) (s : State) :
    (instantiate d args).run job s = ended s (templateOf job s.constants d args) :=
  (byConstants_instantiate d args).run_eq job s

/-- A template that cannot be filled is not an expansion that is too deep. -/
theorem code_ne_of_templateOf {job : Job} {constants : Table Text} {d : Definition}
    {args : List Text} {e : Error} (h : templateOf job constants d args = .error e) :
    e.diagnostic.code ≠ some "S-3-4" :=
  (byConstants_instantiate d args).code_ne job constants e h

/-! ### The four ways an invocation runs -/

/-- The run of an invocation that is removed with a diagnostic. -/
def removal (d : Diagnostic) (job : Job) (s : State) : EStateM.Result Error State Text :=
  if d.severity.abortsAt job.config.errorThreshold
  then .error (.fatal (d.located job.path).promoted) s
  else .ok [] (s.reported [d.located job.path])

section

variable {deeper : Option (Text → Compile Text)} {expand : Text → Compile Text} {i : Invocation}
variable {d : Definition} {job : Job} {s : State}

/-- Reporting and leaving no text is the removal. -/
theorem run_report_removal (diagnostic : Diagnostic) (job : Job) (s : State) :
    (do Compile.report diagnostic; return [] : Compile Text).run job s
      = removal diagnostic job s := by
  rw [run_bind, Compile.run_report]
  unfold removal
  by_cases h : diagnostic.severity.abortsAt job.config.errorThreshold = true
  · rw [if_pos h, if_pos h]
  · rw [if_neg h, if_neg h]
    rfl

/-- An invocation of a mixin that is not known is removed. -/
theorem run_unknown (hd : s.mixins.get? i.name = none) :
    (expandInvocation deeper i).run job s = removal (unknownDiagnostic i.name) job s := by
  rw [← run_report_removal, expandInvocation, run_bind, run_get]
  simp only [hd]

/-- One of a mixin that is being expanded is too. -/
theorem run_recursive (hd : s.mixins.get? i.name = some d) (hstack : i.name ∈ s.expanding) :
    (expandInvocation deeper i).run job s
      = removal (recursiveDiagnostic s.expanding i.name) job s := by
  rw [← run_report_removal, expandInvocation, run_bind, run_get]
  simp only [hd, List.contains_iff_mem, hstack, if_true]

/-- Without a level below, any other invocation is an error, whatever the
threshold is. -/
theorem run_tooDeep (hd : s.mixins.get? i.name = some d) (hstack : i.name ∉ s.expanding) :
    (expandInvocation none i).run job s
      = .error (.fatal ((tooDeepDiagnostic job.config.maxMixinDepth i.name).located
          job.path).promoted) s := by
  rw [expandInvocation, run_bind, run_get]
  simp only [hd, List.contains_iff_mem, hstack, if_false]
  rfl

/-- With a level below, its template is expanded there, with the name on the
stack, and trimmed. -/
theorem run_expanded (hd : s.mixins.get? i.name = some d) (hstack : i.name ∉ s.expanding) :
    (expandInvocation (some expand) i).run job s
      = match templateOf job s.constants d i.args with
        | .error e => .error e s
        | .ok template =>
          match (expand template).run job (s.push i.name) with
          | .ok r s' => .ok (Text.trim r) s'.pop
          | .error e s' => .error e s'.pop := by
  rw [expandInvocation, run_bind, run_get]
  simp only [hd, List.contains_iff_mem, hstack, if_false]
  rw [run_bind, run_instantiate]
  cases templateOf job s.constants d i.args with
  | error e => rfl
  | ok template =>
      show ((do let expanded ← Compile.whileExpanding i.name (expand template)
                return Text.trim expanded : Compile Text)).run job s = _
      rw [run_bind, Compile.run_whileExpanding]
      cases hrun : (expand template).run job (s.push i.name) with
      | ok r s' => simp only [hrun, mapState]; rfl
      | error e s' => simp only [hrun, mapState]

end

end Mixin

end Stylesheet
