import Mathlib.Tactic.Choose
import Stylesheet.Proofs.Template

/-!
# Mixins are hygienic

What an invocation stands for depends on the mixins, the constants of the
document and its arguments. Where it stands matters in two ways only: a
mixin that is being expanded is not expanded again, and the depth is
limited. `expandOne_hygienic` compares the expansions of one invocation
under two stacks, and if both succeed and neither met a recursive mixin,
they are the same text with the same diagnostics.

The same theorem says where this comes from. The template of a mixin, once
filled in, is expanded exactly as if it stood in the document, with the
constants of the document and none of the parameters. And the invocations
of a text are expanded each as if the others were not there, because the
only trace that an expansion leaves is its reports (`IgnoresReports`).

The two-run part goes by induction on the levels. `Gives` is a run that
succeeds, and is taken apart along the text from left to right.
-/

set_option autoImplicit false

namespace Stylesheet

/-! ### Runs that succeed -/

/-- The action succeeds with a value and some reports. -/
def Gives {α : Type} (x : Compile α) (job : Job) (s : State) (a : α) (new : List Diagnostic) : Prop :=
  x.run job s = .ok a (s.reported new)

/-- What was reported can be told from the state. -/
theorem State.reported_inj {s : State} {new more : List Diagnostic}
    (h : s.reported new = s.reported more) : new = more := by
  have hdiagnostics : s.diagnostics ++ new = s.diagnostics ++ more :=
    congrArg State.diagnostics h
  exact List.append_cancel_left hdiagnostics

namespace Gives

variable {α β : Type} {P : Diagnostic → Prop} {job : Job} {s : State}

/-- An action that only reports gives a value with some reports if it succeeds. -/
theorem of_run_ok {x : Compile α} {a : α} {s' : State} (hx : OnlyReports P x)
    (h : x.run job s = .ok a s') : ∃ new, s' = s.reported new ∧ Gives x job s a new := by
  obtain ⟨new, -, hstate⟩ := hx job s
  rw [h] at hstate
  obtain rfl : s' = s.reported new := hstate
  exact ⟨new, rfl, h⟩

/-- A value is given without reports. -/
theorem pure_iff {a b : α} {new : List Diagnostic} :
    Gives (Pure.pure a : Compile α) job s b new ↔ a = b ∧ new = [] := by
  constructor
  · intro h
    have hrun : EStateM.Result.ok a s = (.ok b (s.reported new) : EStateM.Result Error State α) := h
    injection hrun with hvalue hstate
    rw [← s.reported_nil] at hstate
    exact ⟨hvalue, (State.reported_inj (by simpa using hstate)).symm⟩
  · rintro ⟨rfl, rfl⟩
    show EStateM.Result.ok a s = _
    rw [State.reported_nil]

/-- A run of two actions is a run of the first and then one of the
second. -/
theorem of_bind {x : Compile α} {k : α → Compile β} {b : β} {new : List Diagnostic}
    (hx : OnlyReports P x) (hk : ∀ a, OnlyReports P (k a)) (h : Gives (x >>= k) job s b new) :
    ∃ a before after, Gives x job s a before ∧ Gives (k a) job (s.reported before) b after
      ∧ new = before ++ after := by
  unfold Gives at h
  rw [run_bind] at h
  cases hrun : x.run job s with
  | error e s' =>
      rw [hrun] at h
      cases h
  | ok a s' =>
      rw [hrun] at h
      obtain ⟨before, rfl, hbefore⟩ := of_run_ok hx hrun
      obtain ⟨after, hstate, hafter⟩ := of_run_ok (hk a) h
      rw [State.reported_reported] at hstate
      exact ⟨a, before, after, hbefore, hafter, State.reported_inj hstate⟩

end Gives

/-! ### Two runs from different stacks -/

/-- The states have the same mixins and constants. -/
structure SameTables (s s' : State) : Prop where
  mixins : s.mixins = s'.mixins
  constants : s.constants = s'.constants

namespace SameTables

variable {s s' : State}

/-- Reports do not touch the tables. -/
theorem reported (h : SameTables s s') (new new' : List Diagnostic) :
    SameTables (s.reported new) (s'.reported new') := ⟨h.mixins, h.constants⟩

/-- Neither does the stack of mixins that are being expanded. -/
theorem push (h : SameTables s s') (name : Text) : SameTables (s.push name) (s'.push name) :=
  ⟨h.mixins, h.constants⟩

end SameTables

/-- The diagnostics that a mixin which is being expanded is invoked. -/
def IsRecursive (d : Diagnostic) : Prop := d.code = some "S-3-3"

/-- Two actions agree: from states with the same tables, if both succeed
and report nothing recursive, they give the same value and the same
reports. -/
def Agree {α : Type} (job : Job) (x y : Compile α) : Prop :=
  ∀ (s s' : State), SameTables s s' → ∀ a a' new new', Gives x job s a new → Gives y job s' a' new' →
    (∀ d ∈ new, ¬ IsRecursive d) → (∀ d ∈ new', ¬ IsRecursive d) → a = a' ∧ new = new'

namespace Agree

variable {α β : Type} {P : Diagnostic → Prop} {job : Job}

/-- A value agrees with itself. -/
theorem pure (a : α) : Agree job (Pure.pure a) (Pure.pure a) := by
  intro s s' _ b b' new new' h h' _ _
  obtain ⟨rfl, rfl⟩ := Gives.pure_iff.mp h
  obtain ⟨rfl, rfl⟩ := Gives.pure_iff.mp h'
  exact ⟨rfl, rfl⟩

/-- Actions one after the other agree if both parts do. All of them must only
report, since the second ones start from what the first ones leave behind. -/
theorem bind {x y : Compile α} {k l : α → Compile β} (hx : OnlyReports P x) (hy : OnlyReports P y)
    (hk : ∀ a, OnlyReports P (k a)) (hl : ∀ a, OnlyReports P (l a)) (hxy : Agree job x y)
    (hkl : ∀ a, Agree job (k a) (l a)) : Agree job (x >>= k) (y >>= l) := by
  intro s s' hs b b' new new' h h' hnew hnew'
  obtain ⟨a, before, after, ha, hb, rfl⟩ := Gives.of_bind hx hk h
  obtain ⟨a', before', after', ha', hb', rfl⟩ := Gives.of_bind hy hl h'
  simp only [List.mem_append] at hnew hnew'
  obtain ⟨rfl, rfl⟩ := hxy s s' hs a a' before before' ha ha'
    (fun d hd => hnew d (.inl hd)) (fun d hd => hnew' d (.inl hd))
  obtain ⟨rfl, rfl⟩ := hkl a _ _ (hs.reported before before) b b' after after' hb hb'
    (fun d hd => hnew d (.inr hd)) (fun d hd => hnew' d (.inr hd))
  exact ⟨rfl, rfl⟩

/-- Filling a cut agrees if filling each item does. -/
theorem fillM {f g : α → Compile Text} (hf : ∀ a, OnlyReports P (f a))
    (hg : ∀ a, OnlyReports P (g a)) (h : ∀ a, Agree job (f a) (g a)) (cut : Cut α) :
    Agree job (cut.fillM f) (cut.fillM g) := by
  obtain ⟨parts, rest⟩ := cut
  show Agree job (Cut.fillParts f rest parts) (Cut.fillParts g rest parts)
  induction parts with
  | nil => exact pure rest
  | cons part parts ih =>
      have hfs : OnlyReports P (Cut.fillParts f rest parts) := .fillM hf ⟨parts, rest⟩
      have hgs : OnlyReports P (Cut.fillParts g rest parts) := .fillM hg ⟨parts, rest⟩
      refine bind (hf part.2) (hg part.2) (fun _ => .bind hfs fun _ => .pure _)
        (fun _ => .bind hgs fun _ => .pure _) (h part.2) ?_
      intro new
      exact bind hfs hgs (fun _ => .pure _) (fun _ => .pure _) ih fun _ => pure _

end Agree

namespace Mixin

section

variable {job : Job} {s : State} {i : Invocation} {r : Text} {new : List Diagnostic}

/-- A removed invocation leaves no text and one report, with the path of the
document. -/
theorem eq_of_removal {d : Diagnostic} (h : removal d job s = .ok r (s.reported new)) :
    r = [] ∧ new = [d.located job.path] := by
  unfold removal at h
  split at h
  · cases h
  · injection h with hvalue hstate
    exact ⟨hvalue.symm, (State.reported_inj hstate).symm⟩

/-- An invocation that the guard lets pass succeeds if a level is left, the
template can be filled in, and the expansion of the template succeeds. -/
theorem gives_expanded {levels : Nat} {d : Definition} (hd : s.mixins.get? i.name = some d)
    (hstack : i.name ∉ s.expanding) (h : Gives (expandInvocation (below levels) i) job s r new) :
    ∃ n template expanded, levels = n + 1 ∧ templateOf job s.constants d i.args = .ok template
      ∧ Gives (expandLevels n template) job (s.push i.name) expanded new
      ∧ r = Text.trim expanded := by
  cases levels with
  | zero => exact nomatch (run_tooDeep hd hstack).symm.trans h
  | succ n =>
      have hrun := (run_expanded hd hstack).symm.trans h
      cases htemplate : templateOf job s.constants d i.args with
      | error e =>
          rw [htemplate] at hrun
          cases hrun
      | ok template =>
          simp only [htemplate] at hrun
          cases hinner : (expandLevels n template).run job (s.push i.name) with
          | error e s' =>
              rw [hinner] at hrun
              cases hrun
          | ok expanded s' =>
              -- Expanding the template only reports, so the name is all that has to be taken
              -- off the stack.
              obtain ⟨more, rfl, hgives⟩ :=
                Gives.of_run_ok (onlyReports_expandLevels n template) hinner
              rw [hinner] at hrun
              injection hrun with hvalue hstate
              rw [State.pop_reported_push] at hstate
              obtain rfl := State.reported_inj hstate
              exact ⟨n, template, expanded, rfl, rfl, hgives, hvalue.symm⟩

/-- How an invocation succeeds without meeting a recursive mixin: it is of
an unknown mixin, or the guard lets it pass. -/
theorem gives_invocation {levels : Nat}
    (h : Gives (expandInvocation (below levels) i) job s r new) (hnew : ∀ d ∈ new, ¬ IsRecursive d) :
    (s.mixins.get? i.name = none ∧ r = [] ∧ new = [(unknownDiagnostic i.name).located job.path])
    ∨ ∃ d, s.mixins.get? i.name = some d ∧ i.name ∉ s.expanding := by
  unfold Gives at h
  cases hd : s.mixins.get? i.name with
  | none =>
      rw [run_unknown hd] at h
      exact .inl ⟨rfl, eq_of_removal h⟩
  | some d =>
      refine .inr ⟨d, rfl, fun hstack => ?_⟩
      -- The report would be one of those that are excluded.
      rw [run_recursive hd hstack] at h
      obtain ⟨-, rfl⟩ := eq_of_removal h
      exact absurd (code_located _ job.path) (hnew _ (List.mem_singleton_self _))

end

/-- If expansion agrees one level down, it agrees on an invocation. -/
theorem agree_expandInvocation {job : Job} {levels levels' : Nat} (i : Invocation)
    (h : ∀ n n', levels = n + 1 → levels' = n' + 1 → ∀ t,
      Agree job (expandLevels n t) (expandLevels n' t)) :
    Agree job (expandInvocation (below levels) i) (expandInvocation (below levels') i) := by
  intro s s' hs r r' new new' hr hr' hnew hnew'
  rcases gives_invocation hr hnew with ⟨hd, rfl, rfl⟩ | ⟨d, hd, hstack⟩
  · rcases gives_invocation hr' hnew' with ⟨-, rfl, rfl⟩ | ⟨d', hd', -⟩
    · exact ⟨rfl, rfl⟩
    · rw [hs.mixins, hd'] at hd
      cases hd
  · rcases gives_invocation hr' hnew' with ⟨hd', -, -⟩ | ⟨d', hd', hstack'⟩
    · rw [hs.mixins, hd'] at hd
      cases hd
    · obtain ⟨n, template, expanded, hn, ht, hin, rfl⟩ := gives_expanded hd hstack hr
      obtain ⟨n', template', expanded', hn', ht', hin', rfl⟩ := gives_expanded hd' hstack' hr'
      -- The same mixin, and so the same template: it is filled in by the constants alone.
      obtain rfl : d = d' := by
        rw [hs.mixins, hd'] at hd
        exact (Option.some.inj hd).symm
      obtain rfl : template = template' := by
        rw [hs.constants, ht'] at ht
        exact (Except.ok.inj ht).symm
      obtain ⟨rfl, rfl⟩ := h n n' hn hn' template _ _ (hs.push i.name) _ _ _ _ hin hin' hnew hnew'
      exact ⟨rfl, rfl⟩

/-- If expansion agrees on invocations, it agrees on a text: it is cut in the
same way, and each invocation is expanded. -/
theorem agree_expandWith {job : Job} {levels levels' : Nat}
    (h : ∀ i, Agree job (expandInvocation (below levels) i) (expandInvocation (below levels') i))
    (t : Text) : Agree job (expandWith (below levels) t) (expandWith (below levels') t) := by
  unfold expandWith
  refine .bind (.ofScan _) (.ofScan _) (fun _ => .fillM (onlyReports_below _) _)
    (fun _ => .fillM (onlyReports_below _) _) ?_ ?_
  · cases Invocation.cut t with
    | ok cut => exact .pure cut
    | error e => exact fun s s' _ a a' new new' h => nomatch h
  · intro cut
    exact .fillM (onlyReports_below _) (onlyReports_below _) h cut

/-- Expansions of one text agree, whatever the stacks and the levels. -/
theorem agree_expandLevels (job : Job) (levels levels' : Nat) (t : Text) :
    Agree job (expandLevels levels t) (expandLevels levels' t) := by
  induction levels generalizing levels' t with
  | zero =>
      rw [expandLevels_eq, expandLevels_eq]
      refine agree_expandWith (fun i => ?_) t
      exact agree_expandInvocation i fun n n' hn => nomatch hn
  | succ levels ih =>
      rw [expandLevels_eq, expandLevels_eq]
      refine agree_expandWith (fun i => ?_) t
      refine agree_expandInvocation i fun n n' hn hn' t => ?_
      cases hn
      exact ih n' t

end Mixin

/-! ### Expansions beside each other -/

/-- What the action does, and what it reports, does not depend on what was
reported before it. -/
def IgnoresReports {α : Type} (x : Compile α) : Prop :=
  ∀ (job : Job) (s : State), ∃ (outcome : Except Error α) (more : List Diagnostic),
    ∀ new, x.run job (s.reported new) = ended (s.reported (new ++ more)) outcome

namespace IgnoresReports

variable {α β : Type}

/-- A value does not depend on anything. -/
theorem pure (a : α) : IgnoresReports (Pure.pure a : Compile α) := by
  intro job s
  refine ⟨.ok a, [], fun new => ?_⟩
  rw [List.append_nil]
  rfl

/-- Neither do actions one after the other. -/
theorem bind {x : Compile α} {k : α → Compile β} (hx : IgnoresReports x)
    (hk : ∀ a, IgnoresReports (k a)) : IgnoresReports (x >>= k) := by
  intro job s
  obtain ⟨outcome, more, hrun⟩ := hx job s
  cases outcome with
  | error e =>
      refine ⟨.error e, more, fun new => ?_⟩
      rw [run_bind, hrun]
      rfl
  | ok a =>
      obtain ⟨outcome', more', hrun'⟩ := hk a job s
      refine ⟨outcome', more ++ more', fun new => ?_⟩
      rw [run_bind, hrun]
      show (k a).run job (s.reported (new ++ more)) = _
      rw [hrun', List.append_assoc]

/-- Nor does filling a cut. -/
theorem fillM {f : α → Compile Text} (hf : ∀ a, IgnoresReports (f a)) (cut : Cut α) :
    IgnoresReports (cut.fillM f) := by
  obtain ⟨parts, rest⟩ := cut
  unfold Cut.fillM
  induction parts with
  | nil => exact pure _
  | cons part parts ih => exact bind (hf part.2) fun _ => bind ih fun _ => pure _

end IgnoresReports

section

variable {α : Type} {f : α → Compile Text} {job : Job} {s s' : State} {r : Text}

/-- Along the parts of a cut, from what was reported before them: each item
succeeds, gives its own text, and adds its own reports. -/
theorem eq_of_run_fillParts {outcome : α → Except Error Text} {new : α → List Diagnostic}
    (hrun : ∀ a before,
      (f a).run job (s.reported before) = ended (s.reported (before ++ new a)) (outcome a))
    {rest : Text} {parts : List (Text × α)} {before : List Diagnostic}
    (h : (Cut.fillParts f rest parts).run job (s.reported before) = .ok r s') :
    (∀ a ∈ parts.map Prod.snd, ∃ text, outcome a = .ok text)
      ∧ r = parts.flatMap (fun (gap, a) => gap ++ (outcome a).toOption.getD []) ++ rest
      ∧ s' = s.reported (before ++ (parts.map Prod.snd).flatMap new) := by
  induction parts generalizing before r with
  | nil =>
      cases h
      simp
  | cons part parts ih =>
      obtain ⟨gap, a⟩ := part
      unfold Cut.fillParts at h
      -- The first item reports what it reports in any case, and the others start behind that.
      rw [run_bind, hrun] at h
      cases houtcome : outcome a with
      | error e =>
          rw [houtcome] at h
          cases h
      | ok text =>
          simp only [houtcome, ended, run_bind] at h
          cases hrest : (Cut.fillParts f rest parts).run job (s.reported (before ++ new a)) with
          | error e s₁ =>
              rw [hrest] at h
              cases h
          | ok others s₁ =>
              rw [hrest] at h
              cases h
              obtain ⟨hall, rfl, rfl⟩ := ih hrest
              refine ⟨?_, ?_, ?_⟩
              · intro b hb
                rcases List.mem_cons.mp hb with rfl | hb
                · exact ⟨text, houtcome⟩
                · exact hall b hb
              · simp [houtcome, Except.toOption]
              · simp

/-- The items of a cut are replaced each as if the others were not there:
what stands for them is what their actions give by themselves, and so are
the reports. -/
theorem exists_fill_of_fillM (hf : ∀ a, IgnoresReports (f a)) {cut : Cut α}
    (h : (cut.fillM f).run job s = .ok r s') :
    ∃ (text : α → Text) (new : α → List Diagnostic),
      (∀ a ∈ cut.items, (f a).run job s = .ok (text a) (s.reported (new a)))
      ∧ r = cut.fill text ∧ s' = s.reported (cut.items.flatMap new) := by
  obtain ⟨parts, rest⟩ := cut
  choose outcome new hrun using fun a => hf a job s
  have hstart : (Cut.fillParts f rest parts).run job (s.reported []) = .ok r s' := by
    rw [State.reported_nil]
    exact h
  obtain ⟨hall, hr, hs'⟩ := eq_of_run_fillParts hrun hstart
  refine ⟨fun a => (outcome a).toOption.getD [], new, ?_, hr, hs'⟩
  intro a ha
  obtain ⟨text, htext⟩ := hall a ha
  have halone : (f a).run job s = ended (s.reported (new a)) (outcome a) := by
    simpa using hrun a []
  show _ = EStateM.Result.ok ((outcome a).toOption.getD []) _
  rw [halone, htext]
  rfl

end

namespace Mixin

/-- Removing an invocation reports or aborts, and does so whatever was
reported. -/
theorem ignoresReports_removal (d : Diagnostic) (job : Job) (s : State) :
    ∃ (outcome : Except Error Text) (more : List Diagnostic),
      ∀ new, removal d job (s.reported new) = ended (s.reported (new ++ more)) outcome := by
  by_cases habort : d.severity.abortsAt job.config.errorThreshold = true
  · refine ⟨.error (.fatal (d.located job.path).promoted), [], fun new => ?_⟩
    rw [removal, if_pos habort, List.append_nil]
    rfl
  · refine ⟨.ok [], [d.located job.path], fun new => ?_⟩
    rw [removal, if_neg habort, State.reported_reported]
    rfl

/-- One invocation. `hdeeper` is about the level below. -/
theorem ignoresReports_expandInvocation {deeper : Option (Text → Compile Text)}
    (hdeeper : ∀ expand ∈ deeper, ∀ t, IgnoresReports (expand t)) (i : Invocation) :
    IgnoresReports (expandInvocation deeper i) := by
  intro job s
  -- What becomes of an invocation is decided by the mixins, the stack, the levels and the
  -- constants, and none of these is touched by reports.
  cases hd : s.mixins.get? i.name with
  | none =>
      obtain ⟨outcome, more, h⟩ := ignoresReports_removal (unknownDiagnostic i.name) job s
      refine ⟨outcome, more, fun new => ?_⟩
      rw [run_unknown (s := s.reported new) hd, h]
  | some d =>
      by_cases hstack : i.name ∈ s.expanding
      · obtain ⟨outcome, more, h⟩ :=
          ignoresReports_removal (recursiveDiagnostic s.expanding i.name) job s
        refine ⟨outcome, more, fun new => ?_⟩
        rw [run_recursive (s := s.reported new) hd hstack]
        exact h new
      · cases deeper with
        | none =>
            refine ⟨.error (.fatal ((tooDeepDiagnostic job.config.maxMixinDepth i.name).located
              job.path).promoted), [], fun new => ?_⟩
            rw [run_tooDeep (s := s.reported new) hd hstack, List.append_nil]
            rfl
        | some expand =>
            cases htemplate : templateOf job s.constants d i.args with
            | error e =>
                refine ⟨.error e, [], fun new => ?_⟩
                have htemplate' : templateOf job (s.reported new).constants d i.args = .error e :=
                  htemplate
                rw [run_expanded (s := s.reported new) hd hstack, List.append_nil]
                simp only [htemplate']
                rfl
            | ok template =>
                obtain ⟨outcome, more, h⟩ := hdeeper expand rfl template job (s.push i.name)
                refine ⟨outcome.map Text.trim, more, fun new => ?_⟩
                have htemplate' :
                    templateOf job (s.reported new).constants d i.args = .ok template := htemplate
                have hrun := h new
                rw [show (s.push i.name).reported new = (s.reported new).push i.name from rfl] at hrun
                rw [run_expanded (s := s.reported new) hd hstack]
                simp only [htemplate', hrun]
                cases outcome with
                | ok r => exact congrArg (EStateM.Result.ok _) (s.pop_reported_push i.name _)
                | error e => exact congrArg (EStateM.Result.error e) (s.pop_reported_push i.name _)

/-- All invocations of a text. -/
theorem ignoresReports_expandWith {deeper : Option (Text → Compile Text)}
    (hdeeper : ∀ expand ∈ deeper, ∀ t, IgnoresReports (expand t)) (t : Text) :
    IgnoresReports (expandWith deeper t) := by
  refine .bind ?_ fun cut => .fillM (ignoresReports_expandInvocation hdeeper) cut
  cases Invocation.cut t with
  | ok cut => exact .pure cut
  | error e =>
      intro job s
      refine ⟨.error (.scan e), [], fun new => ?_⟩
      rw [List.append_nil]
      rfl

/-- All levels, by induction on their number. -/
theorem ignoresReports_expandLevels (levels : Nat) (t : Text) :
    IgnoresReports (expandLevels levels t) := by
  induction levels generalizing t with
  | zero =>
      refine ignoresReports_expandWith (fun expand h => ?_) t
      exact absurd h (Option.not_mem_none expand)
  | succ levels ih =>
      refine ignoresReports_expandWith (fun expand h => ?_) t
      cases h
      exact ih

/-- An invocation with any number of levels below it. -/
theorem ignoresReports_below (levels : Nat) (i : Invocation) :
    IgnoresReports (expandInvocation (below levels) i) := by
  refine ignoresReports_expandInvocation (fun expand h => ?_) i
  cases levels with
  | zero => exact absurd h (Option.not_mem_none expand)
  | succ levels =>
      cases h
      exact ignoresReports_expandLevels levels

/-! ### One invocation -/

/-- Expands one invocation while the mixins on the stack are being
expanded. -/
def expandOne (stack : List Text) (i : Invocation) : Compile Text := do
  modify fun s => { s with expanding := stack }
  expandInvocation (below ((← Compile.config).maxMixinDepth - stack.length)) i

/-- The stack is set, and as many levels are left as it leaves room for. -/
theorem run_expandOne (stack : List Text) (i : Invocation) (job : Job) (s : State) :
    (expandOne stack i).run job s
      = (expandInvocation (below (job.config.maxMixinDepth - stack.length)) i).run job
          { s with expanding := stack } := rfl

/-- Expanding one invocation is what expanding a text does for each of its
invocations. -/
theorem run_expandAll_of_cut {t : Text} {cut : Cut Invocation} (hcut : Invocation.cut t = .ok cut)
    (stack : List Text) (job : Job) (s : State) :
    (expandAll stack t).run job s
      = (cut.fillM (expandInvocation (below (job.config.maxMixinDepth - stack.length)))).run job
          { s with expanding := stack } := by
  rw [run_expandAll, expandLevels_eq, expandWith, hcut]
  rfl

section

variable {job : Job} {s : State} {stack : List Text} {i : Invocation} {r : Text} {e : State}

/-- A run of `expandOne` as a run of the invocation below a stack. -/
theorem gives_expandOne {new : List Diagnostic} (h : (expandOne stack i).run job s = .ok r e)
    (hnew : e.diagnostics = s.diagnostics ++ new) :
    Gives (expandInvocation (below (job.config.maxMixinDepth - stack.length)) i) job
      { s with expanding := stack } r new := by
  rw [run_expandOne] at h
  obtain ⟨more, rfl, hgives⟩ := Gives.of_run_ok (onlyReports_below _ i) h
  have hmore : s.diagnostics ++ more = s.diagnostics ++ new := hnew
  rw [← List.append_cancel_left hmore]
  exact hgives

/-- The template of a mixin is filled in from the constants and the
arguments, and then expanded as if it stood in the document. -/
theorem exists_template_of_expandOne {d : Definition} (hd : s.mixins.get? i.name = some d)
    (hstack : i.name ∉ stack) (h : (expandOne stack i).run job s = .ok r e) :
    ∃ template expanded e', (instantiate d i.args).run job s = .ok template s
      ∧ (expandAll (stack ++ [i.name]) template).run job s = .ok expanded e'
      ∧ r = Text.trim expanded ∧ e.diagnostics = e'.diagnostics := by
  obtain ⟨new, hnew, hgives⟩ := Gives.of_run_ok (onlyReports_below _ i) (run_expandOne _ _ _ _ ▸ h)
  obtain ⟨n, template, expanded, hn, htemplate, hinner, rfl⟩ :=
    gives_expanded (s := { s with expanding := stack }) hd hstack hgives
  have hlevels : job.config.maxMixinDepth - (stack ++ [i.name]).length = n := by
    rw [List.length_append, List.length_singleton]
    omega
  refine ⟨template, expanded, (({ s with expanding := stack } : State).push i.name).reported new,
    ?_, ?_, rfl, ?_⟩
  · rw [run_instantiate, show templateOf job s.constants d i.args = .ok template from htemplate]
    rfl
  · rw [run_expandAll, hlevels]
    exact hinner
  · rw [hnew]
    rfl

/-- The invocations of a text are expanded each by itself. -/
theorem exists_fill_of_expandAll {t : Text} (h : (expandAll stack t).run job s = .ok r e) :
    ∃ (cut : Cut Invocation) (text : Invocation → Text) (new : Invocation → List Diagnostic),
      Invocation.cut t = .ok cut
      ∧ (∀ i ∈ cut.items, (expandOne stack i).run job s
          = .ok (text i) { s with expanding := stack, diagnostics := s.diagnostics ++ new i })
      ∧ r = cut.fill text ∧ e.diagnostics = s.diagnostics ++ cut.items.flatMap new := by
  cases hcut : Invocation.cut t with
  | error scan =>
      rw [run_expandAll, expandLevels_eq, expandWith, hcut] at h
      cases h
  | ok cut =>
      rw [run_expandAll_of_cut hcut] at h
      obtain ⟨text, new, hitems, rfl, rfl⟩ := exists_fill_of_fillM (ignoresReports_below _) h
      exact ⟨cut, text, new, rfl, hitems, rfl, rfl⟩

end

/-- **Mixins are hygienic.** Of one invocation and two stacks, over the
same mixins and constants: if both expansions succeed and report nothing
recursive, they are the same text with the same reports. What is expanded
for it is the template, filled in from the constants of the document and
the arguments, as if it stood in the document. And the invocations of a
text, as they stand beside each other, are expanded each by itself. -/
theorem expandOne_hygienic (job : Job) (i : Invocation) (s s' : State)
    (hmixins : s.mixins = s'.mixins) (hconstants : s.constants = s'.constants)
    (stack stack' : List Text) :
    (∀ r r' e e' new new', (expandOne stack i).run job s = .ok r e →
        (expandOne stack' i).run job s' = .ok r' e' →
        e.diagnostics = s.diagnostics ++ new → e'.diagnostics = s'.diagnostics ++ new' →
        (∀ d ∈ new ++ new', d.code ≠ some "S-3-3") → r = r' ∧ new = new')
    ∧ (∀ d r e, s.mixins.get? i.name = some d → i.name ∉ stack →
        (expandOne stack i).run job s = .ok r e →
        ∃ template expanded e', (instantiate d i.args).run job s = .ok template s
          ∧ (expandAll (stack ++ [i.name]) template).run job s = .ok expanded e'
          ∧ r = Text.trim expanded ∧ e.diagnostics = e'.diagnostics)
    ∧ (∀ t r e, (expandAll stack t).run job s = .ok r e →
        ∃ (cut : Cut Invocation) (text : Invocation → Text) (new : Invocation → List Diagnostic),
          Invocation.cut t = .ok cut
          ∧ (∀ i ∈ cut.items, (expandOne stack i).run job s
              = .ok (text i) { s with expanding := stack, diagnostics := s.diagnostics ++ new i })
          ∧ r = cut.fill text ∧ e.diagnostics = s.diagnostics ++ cut.items.flatMap new) := by
  refine ⟨?_, ?_, ?_⟩
  · intro r r' e e' new new' h h' hnew hnew' hcodes
    -- The stacks may differ, and with them the levels
    -- that are left; the expansions agree all the same.
    have hagree : Agree job
        (expandInvocation (below (job.config.maxMixinDepth - stack.length)) i)
        (expandInvocation (below (job.config.maxMixinDepth - stack'.length)) i) :=
      agree_expandInvocation i fun n n' _ _ t => agree_expandLevels job n n' t
    have htables : SameTables { s with expanding := stack } { s' with expanding := stack' } :=
      ⟨hmixins, hconstants⟩
    refine hagree _ _ htables r r' new new' (gives_expandOne h hnew) (gives_expandOne h' hnew') ?_ ?_
    · intro d hd
      exact hcodes d (List.mem_append_left _ hd)
    · intro d hd
      exact hcodes d (List.mem_append_right _ hd)
  · intro d r e hd hstack h
    exact exists_template_of_expandOne hd hstack h
  · intro t r e h
    exact exists_fill_of_expandAll h

/-- The mixin `outer` has a parameter `x` and invokes `inner`, which uses
the constant `x` and invokes a mixin that is not defined. -/
def nested : State :=
  { constants := .ofPairs [("x".toList, "red".toList)]
    mixins := .ofPairs [
      ("outer".toList, ⟨"outer".toList, [⟨"x".toList, none⟩], "+inner;".toList⟩),
      ("inner".toList, ⟨"inner".toList, [], "color: $x +none;".toList⟩)] }

/-- The text that a run succeeds with, and the codes of its diagnostics. -/
def summary : EStateM.Result Error State Text → Option (Text × List (Option String))
  | .ok r e => some (r, e.diagnostics.map (·.code))
  | .error _ _ => none

/-- A run with a summary has succeeded. -/
theorem exists_of_summary {run : EStateM.Result Error State Text} {r : Text}
    {codes : List (Option String)} (h : summary run = some (r, codes)) :
    ∃ e, run = .ok r e ∧ e.diagnostics.map (·.code) = codes := by
  cases run with
  | error e s => cases h
  | ok a s =>
      cases h
      exact ⟨s, rfl, rfl⟩

/-- The mixin `inner` stands for the same text inside `outer`, and in a
document with another text, as outside of it. -/
theorem expandOne_hygienic_nested :
    ∃ r e e', (expandOne [] ⟨"inner".toList, [], 0, 7⟩).run ⟨⟨[]⟩, {}, .empty []⟩ nested = .ok r e
      ∧ (expandOne ["outer".toList] ⟨"inner".toList, [], 0, 7⟩).run ⟨⟨[]⟩, {}, .empty []⟩
          { nested with text := "p".toList } = .ok r e'
      ∧ e.diagnostics = e'.diagnostics ∧ e.diagnostics.map (·.code) = [some "S-3-2"] := by
  have h : summary ((expandOne [] ⟨"inner".toList, [], 0, 7⟩).run ⟨⟨[]⟩, {}, .empty []⟩ nested)
      = some ("color: red".toList, [some "S-3-2"]) := by decide +kernel
  have h' : summary ((expandOne ["outer".toList] ⟨"inner".toList, [], 0, 7⟩).run
      ⟨⟨[]⟩, {}, .empty []⟩ { nested with text := "p".toList })
      = some ("color: red".toList, [some "S-3-2"]) := by decide +kernel
  obtain ⟨e, hrun, hcode⟩ := exists_of_summary h
  obtain ⟨e', hrun', hcode'⟩ := exists_of_summary h'
  have hcodes : ∀ d ∈ e.diagnostics ++ e'.diagnostics, d.code ≠ some "S-3-3" := by
    intro d hd hrec
    have hmem := List.mem_map_of_mem (f := (·.code)) hd
    rw [List.map_append, hcode, hcode', hrec] at hmem
    simp at hmem
  obtain ⟨hsame, hreports⟩ := (expandOne_hygienic _ _ nested { nested with text := "p".toList }
    rfl rfl [] ["outer".toList]).1 _ _ e e' e.diagnostics e'.diagnostics hrun hrun' rfl rfl hcodes
  exact ⟨_, e, e', hrun, hsame ▸ hrun', hreports, hcode⟩

end Mixin

end Stylesheet
