import Mathlib.Data.List.Nodup
import Mathlib.Data.List.Perm.Subperm
import Mathlib.Data.Nat.Init
import Stylesheet.Proofs.Template

/-!
# The cycle guard bounds expansion

A mixin may invoke itself, directly or through others, and with which
mixins a template ends up is known only when its parameters are filled in.
Expansion ends all the same, because an invocation of a mixin that is being
expanded is removed. So the names on the stack are distinct and belong to
the table (`Guarded`), and a stack as long as the table leaves no mixin to
invoke (`length_lt_of_invocable`).

`expandLevels` recurses on a number of levels. The useful form of
termination for such a function is that the number does not matter: once
there are as many levels as mixins, more of them change nothing
(`run_expandLevels_of_le`). The configured depth is then a limit that only
tables larger than it can reach.

That the stack is guarded at every moment is said with an action that
watches: `watchLevels` is expansion with the action taken wherever the
stack may have changed. If the action does nothing on a guarded stack, it
might as well not be there.
-/

set_option autoImplicit false

namespace Stylesheet

/-! ### Filling a cut -/

section Fill

variable {α : Type} {P : Diagnostic → Prop} {f g : α → Compile Text} {job : Job}

/-- Two ways to fill a cut run alike, if they do for each item and from
each state that differs by reports. -/
theorem run_fillM_congr {s : State} (hf : ∀ a, OnlyReports P (f a))
    (h : ∀ a new, (f a).run job (s.reported new) = (g a).run job (s.reported new)) (cut : Cut α) :
    (cut.fillM f).run job s = (cut.fillM g).run job s := by
  obtain ⟨parts, rest⟩ := cut
  unfold Cut.fillM
  induction parts generalizing s with
  | nil => rfl
  | cons part parts ih =>
      have hpart : (f part.2).run job s = (g part.2).run job s := by
        simpa using h part.2 []
      obtain ⟨new, -, hstate⟩ := hf part.2 job s
      unfold Cut.fillParts
      rw [run_bind, run_bind, ← hpart]
      cases hrun : (f part.2).run job s with
      | error e s₁ => rfl
      | ok text s₁ =>
          rw [hrun] at hstate
          obtain rfl : s₁ = s.reported new := hstate
          have hrest := ih (s := s.reported new) fun a more => by
            simpa using h a (new ++ more)
          simp only [run_bind, hrest]

/-- Filling a cut fails only where an item fails. -/
theorem exists_run_of_fillM_error {s s' : State} {e : Error} (hf : ∀ a, OnlyReports P (f a))
    {cut : Cut α} (h : (cut.fillM f).run job s = .error e s') :
    ∃ a new s'', (f a).run job (s.reported new) = .error e s'' := by
  obtain ⟨parts, rest⟩ := cut
  unfold Cut.fillM at h
  induction parts generalizing s with
  | nil => cases h
  | cons part parts ih =>
      unfold Cut.fillParts at h
      rw [run_bind] at h
      -- The first item only reports, so the others run from the same state with these reports.
      obtain ⟨new, -, hstate⟩ := hf part.2 job s
      cases hrun : (f part.2).run job s with
      | error e₁ s₁ =>
          rw [hrun] at h
          cases h
          exact ⟨part.2, [], s', by simpa using hrun⟩
      | ok text s₁ =>
          rw [hrun] at h hstate
          obtain rfl : s₁ = s.reported new := hstate
          simp only [run_bind] at h
          cases hrest : (Cut.fillParts f rest parts).run job (s.reported new) with
          | ok others s₂ =>
              rw [hrest] at h
              cases h
          | error e₁ s₁ =>
              rw [hrest] at h
              cases h
              obtain ⟨a, more, s'', ha⟩ := ih hrest
              exact ⟨a, new ++ more, s'', by simpa using ha⟩

end Fill

/-- A name that has an entry is one of the names. -/
theorem Table.mem_names_of_contains {α : Type} {t : Table α} {name : Text}
    (h : t.contains name) : name ∈ t.names := by
  obtain ⟨entry, hmem, hname⟩ := List.lookup_isSome_iff.mp h
  rw [LawfulBEq.eq_of_beq hname]
  exact List.mem_map_of_mem hmem

namespace Mixin

/-! ### Guarded stacks -/

/-- The mixins that are being expanded are distinct, and the table has
them all. -/
structure Guarded (s : State) : Prop where
  distinct : s.expanding.Nodup
  defined : ∀ name ∈ s.expanding, s.mixins.contains name

namespace Guarded

variable {s : State}

/-- At the start nothing is being expanded. -/
theorem start (s : State) : Guarded { s with expanding := [] } where
  distinct := List.nodup_nil
  defined := by simp

/-- Reports do not touch the stack. -/
theorem reported (h : Guarded s) (new : List Diagnostic) : Guarded (s.reported new) :=
  ⟨h.distinct, h.defined⟩

/-- The guard lets pass what keeps the stack guarded. -/
theorem push (h : Guarded s) {name : Text} {d : Definition} (hd : s.mixins.get? name = some d)
    (hstack : name ∉ s.expanding) : Guarded (s.push name) where
  distinct := by
    show (s.expanding ++ [name]).Nodup
    rw [List.nodup_append]
    refine ⟨h.distinct, List.nodup_singleton name, ?_⟩
    intro a ha b hb
    rw [List.mem_singleton.mp hb]
    rintro rfl
    exact hstack ha
  defined := by
    intro other hother
    rcases List.mem_append.mp hother with hother | hother
    · exact h.defined other hother
    · rw [List.mem_singleton.mp hother]
      exact Option.isSome_iff_exists.mpr ⟨d, hd⟩

/-- The stack is no longer than the table of mixins, because its names are
different and all of them known. -/
theorem length_le (h : Guarded s) : s.expanding.length ≤ s.mixins.length := by
  have hsubset : s.expanding ⊆ s.mixins.names := by
    intro name hname
    exact Table.mem_names_of_contains (h.defined name hname)
  have hle := (List.subperm_of_subset h.distinct hsubset).length_le
  simpa [Table.names, Table.length] using hle

/-- As long as there is a mixin to invoke, the stack is shorter than the
table. -/
theorem length_lt_of_invocable (h : Guarded s) {name : Text} {d : Definition}
    (hd : s.mixins.get? name = some d) (hstack : name ∉ s.expanding) :
    s.expanding.length < s.mixins.length := by
  have hle := (h.push hd hstack).length_le
  have hlen : (s.push name).expanding.length = s.expanding.length + 1 := by simp [State.push]
  rw [hlen] at hle
  exact hle

end Guarded

/-! ### The number of levels does not matter -/

section

variable {job : Job} {s : State}

/-- An invocation needs what is deeper only for a mixin that the guard
lets pass. -/
theorem run_expandInvocation_congr {expand expand' : Text → Compile Text} (i : Invocation)
    (h : ∀ d, s.mixins.get? i.name = some d → i.name ∉ s.expanding → ∀ t,
      (expand t).run job (s.push i.name) = (expand' t).run job (s.push i.name)) :
    (expandInvocation (some expand) i).run job s = (expandInvocation (some expand') i).run job s := by
  cases hd : s.mixins.get? i.name with
  | none => rw [run_unknown hd, run_unknown hd]
  | some d =>
      by_cases hstack : i.name ∈ s.expanding
      · rw [run_recursive hd hstack, run_recursive hd hstack]
      · rw [run_expanded hd hstack, run_expanded hd hstack]
        simp only [h d hd hstack]

/-- Two ways to expand a text run alike, if they do for each invocation. -/
theorem run_expandWith_congr {P : Diagnostic → Prop} {deeper deeper' : Option (Text → Compile Text)}
    (hdeeper : ∀ i, OnlyReports P (expandInvocation deeper i))
    (h : ∀ i new, (expandInvocation deeper i).run job (s.reported new)
      = (expandInvocation deeper' i).run job (s.reported new)) (t : Text) :
    (expandWith deeper t).run job s = (expandWith deeper' t).run job s := by
  unfold expandWith
  cases Invocation.cut t with
  | error e => rfl
  | ok cut => exact run_fillM_congr hdeeper h cut

/-- With levels for all mixins that are not on the stack, one level more
changes nothing. -/
theorem run_expandLevels_succ {levels : Nat} (hs : Guarded s)
    (hlevels : s.mixins.length ≤ levels + s.expanding.length) (t : Text) :
    (expandLevels (levels + 1) t).run job s = (expandLevels levels t).run job s := by
  induction levels generalizing s t with
  | zero =>
      -- The stack is as long as the table, so the guard lets nothing pass.
      refine run_expandWith_congr (onlyReports_below 1) ?_ t
      intro i new
      have hs' := hs.reported new
      cases hd : (s.reported new).mixins.get? i.name with
      | none => rw [run_unknown hd, run_unknown hd]
      | some d =>
          by_cases hstack : i.name ∈ (s.reported new).expanding
          · rw [run_recursive hd hstack, run_recursive hd hstack]
          · have hlt : s.expanding.length < s.mixins.length :=
              hs'.length_lt_of_invocable hd hstack
            omega
  | succ levels ih =>
      refine run_expandWith_congr (onlyReports_below (levels + 2)) ?_ t
      intro i new
      refine run_expandInvocation_congr i ?_
      intro d hd hstack t
      -- What is deeper runs with one level less, and with one name more on the stack.
      refine ih ((hs.reported new).push hd hstack) ?_ t
      show s.mixins.length ≤ levels + (s.expanding ++ [i.name]).length
      rw [List.length_append, List.length_singleton]
      omega

/-- With levels for all mixins, any number of further levels changes
nothing. -/
theorem run_expandLevels_of_le {levels : Nat} (hlevels : s.mixins.length ≤ levels) (t : Text) :
    (expandLevels levels t).run job { s with expanding := [] }
      = (expandLevels s.mixins.length t).run job { s with expanding := [] } := by
  induction levels, hlevels using Nat.le_induction with
  | base => rfl
  | succ levels hle ih =>
      rw [← ih]
      exact run_expandLevels_succ (.start s) (by simpa using hle) t

end

/-! ### When the limit is reached -/

section

variable {job : Job} {s s' : State} {e : Error}

/-- A removal that aborts does so with its own code. -/
theorem code_ne_of_removal {d : Diagnostic} (hd : d.code ≠ some "S-3-4")
    (h : removal d job s = .error e s') : e.diagnostic.code ≠ some "S-3-4" := by
  unfold removal at h
  split at h
  · cases h
    show (d.located job.path).promoted.code ≠ _
    rw [Diagnostic.code_promoted, code_located]
    exact hd
  · cases h

/-- An invocation that is too deep is one that the guard lets pass. -/
theorem invocable_of_tooDeep {deeper : Option (Text → Compile Text)} {i : Invocation}
    (h : (expandInvocation deeper i).run job s = .error e s')
    (he : e.diagnostic.code = some "S-3-4") :
    ∃ d, s.mixins.get? i.name = some d ∧ i.name ∉ s.expanding := by
  cases hd : s.mixins.get? i.name with
  | none =>
      rw [run_unknown hd] at h
      exact absurd he (code_ne_of_removal (by simp [unknownDiagnostic]) h)
  | some d =>
      refine ⟨d, rfl, fun hstack => ?_⟩
      rw [run_recursive hd hstack] at h
      exact absurd he (code_ne_of_removal (by simp [recursiveDiagnostic]) h)

/-- If there is a level below it, its template is too deep there. -/
theorem exists_run_of_tooDeep {expand : Text → Compile Text} {i : Invocation} {d : Definition}
    (hd : s.mixins.get? i.name = some d) (hstack : i.name ∉ s.expanding)
    (h : (expandInvocation (some expand) i).run job s = .error e s')
    (he : e.diagnostic.code = some "S-3-4") :
    ∃ template s'', (expand template).run job (s.push i.name) = .error e s'' := by
  rw [run_expanded hd hstack] at h
  split at h
  · -- Filling in the template fails with other codes.
    rename_i htemplate
    cases h
    exact absurd he (code_ne_of_templateOf htemplate)
  · split at h
    · cases h
    · rename_i hrun
      cases h
      exact ⟨_, _, hrun⟩

/-- If the text of an invocation is too deep, so is an invocation in it. -/
theorem exists_invocation_of_expandWith_error {P : Diagnostic → Prop}
    {deeper : Option (Text → Compile Text)}
    (hdeeper : ∀ i, OnlyReports P (expandInvocation deeper i)) {t : Text}
    (h : (expandWith deeper t).run job s = .error e s') (he : e.diagnostic.code = some "S-3-4") :
    ∃ i new s'', (expandInvocation deeper i).run job (s.reported new) = .error e s'' := by
  unfold expandWith at h
  cases hcut : Invocation.cut t with
  | error scan =>
      rw [hcut] at h
      cases h
      simp [Error.diagnostic] at he
  | ok cut =>
      rw [hcut] at h
      exact exists_run_of_fillM_error hdeeper h

/-- Expansion is too deep only if the levels and the stack together are
fewer than the mixins. -/
theorem length_lt_of_tooDeep {levels : Nat} (hs : Guarded s) {t : Text}
    (h : (expandLevels levels t).run job s = .error e s')
    (he : e.diagnostic.code = some "S-3-4") :
    levels + s.expanding.length < s.mixins.length := by
  induction levels generalizing s s' t with
  | zero =>
      obtain ⟨i, new, s'', hi⟩ := exists_invocation_of_expandWith_error (onlyReports_below 0) h he
      obtain ⟨d, hd, hstack⟩ := invocable_of_tooDeep hi he
      have hlt : s.expanding.length < s.mixins.length :=
        (hs.reported new).length_lt_of_invocable hd hstack
      omega
  | succ levels ih =>
      obtain ⟨i, new, s'', hi⟩ :=
        exists_invocation_of_expandWith_error (onlyReports_below (levels + 1)) h he
      obtain ⟨d, hd, hstack⟩ := invocable_of_tooDeep hi he
      obtain ⟨template, s₁, hrun⟩ := exists_run_of_tooDeep hd hstack hi he
      -- One level less, and one name more on the stack.
      have hlt := ih ((hs.reported new).push hd hstack) hrun
      have hlen : ((s.reported new).push i.name).expanding.length = s.expanding.length + 1 := by
        simp [State.push, State.reported]
      rw [hlen] at hlt
      show levels + 1 + s.expanding.length < s.mixins.length
      have hmixins : ((s.reported new).push i.name).mixins.length = s.mixins.length := rfl
      omega

end

/-! ### Watching the stack -/

/-- Expands the invocations of a text and takes an action wherever the
stack may have changed: at the start of the text, and behind each
invocation. -/
def watchWith (watch : Compile Unit) (deeper : Option (Text → Compile Text)) (t : Text) :
    Compile Text := do
  watch
  let cut ← Compile.ofScan (Invocation.cut t)
  cut.fillM fun i => do
    let new ← expandInvocation deeper i
    watch
    return new

/-- `expandLevels`, watched. -/
def watchLevels (watch : Compile Unit) : Nat → Text → Compile Text
  | 0 => watchWith watch none
  | levels + 1 => watchWith watch (some (watchLevels watch levels))

/-- `expandAll`, watched. -/
def watchAll (watch : Compile Unit) (stack : List Text) (t : Text) : Compile Text := do
  modify fun s => { s with expanding := stack }
  watchLevels watch ((← Compile.config).maxMixinDepth - stack.length) t

section

variable {job : Job} {s : State} {watch : Compile Unit}

/-- Watching a text is expanding it, if this holds of each invocation.
`hdeeper` keeps the state guarded from one invocation to the next. -/
theorem run_watchWith {P : Diagnostic → Prop} {deeper deeper' : Option (Text → Compile Text)}
    (hwatch : ∀ s, Guarded s → watch.run job s = .ok () s) (hs : Guarded s)
    (hdeeper : ∀ i, OnlyReports P (expandInvocation deeper i))
    (h : ∀ i new, (expandInvocation deeper i).run job (s.reported new)
      = (expandInvocation deeper' i).run job (s.reported new)) (t : Text) :
    (watchWith watch deeper' t).run job s = (expandWith deeper t).run job s := by
  unfold watchWith expandWith
  rw [run_bind, hwatch s hs]
  cases Invocation.cut t with
  | error e => rfl
  | ok cut =>
      refine (run_fillM_congr hdeeper (fun i new => ?_) cut).symm
      rw [run_bind, ← h i new]
      -- Behind an invocation the stack is what it was, and the watch passes once more.
      obtain ⟨more, -, hstate⟩ := hdeeper i job (s.reported new)
      cases hrun : (expandInvocation deeper i).run job (s.reported new) with
      | error e s₁ => rfl
      | ok text s₁ =>
          rw [hrun] at hstate
          obtain rfl : s₁ = (s.reported new).reported more := hstate
          have hw := hwatch _ ((hs.reported new).reported more)
          simp only [run_bind, hw]
          rfl

/-- An action that does nothing on a guarded stack does nothing in
expansion. -/
theorem run_watchLevels (hwatch : ∀ s, Guarded s → watch.run job s = .ok () s) (levels : Nat)
    (hs : Guarded s) (t : Text) :
    (watchLevels watch levels t).run job s = (expandLevels levels t).run job s := by
  induction levels generalizing s t with
  | zero =>
      exact run_watchWith hwatch hs (onlyReports_below 0) (fun _ _ => rfl) t
  | succ levels ih =>
      refine run_watchWith hwatch hs (onlyReports_below (levels + 1)) ?_ t
      intro i new
      refine run_expandInvocation_congr i ?_
      intro d hd hstack t
      exact (ih ((hs.reported new).push hd hstack) t).symm

end

/-- **The cycle guard bounds expansion.** From an empty stack, whatever the
mixins invoke: expansion goes no deeper than there are mixins, so that with
as many levels any further ones change nothing; on its way the stack never
holds a name twice or a name without a definition, so that an action which
passes such stacks can be taken at every point; and it is too deep only if
the configured depth is less than the number of mixins. -/
theorem expandAll_cycleGuard (job : Job) (s : State) (t : Text) :
    (∀ levels, s.mixins.length ≤ levels →
      (expandLevels levels t).run job { s with expanding := [] }
        = (expandLevels s.mixins.length t).run job { s with expanding := [] })
    ∧ (∀ watch : Compile Unit,
        (∀ s', Guarded s' → watch.run job s' = .ok () s') →
        (watchAll watch [] t).run job s = (expandAll [] t).run job s)
    ∧ (∀ e s', (expandAll [] t).run job s = .error e s' → e.diagnostic.code = some "S-3-4" →
        job.config.maxMixinDepth < s.mixins.length) := by
  refine ⟨?_, ?_, ?_⟩
  · intro levels hlevels
    exact run_expandLevels_of_le hlevels t
  · intro watch hwatch
    exact run_watchLevels hwatch _ (.start s) t
  · intro e s' h he
    have hlt := length_lt_of_tooDeep (.start s) h he
    simpa using hlt

/-- Two mixins that invoke each other. -/
def ring : State :=
  { mixins := .ofPairs [("a".toList, ⟨"a".toList, [], "x +b; y".toList⟩),
      ("b".toList, ⟨"b".toList, [], "+a;".toList⟩)] }

/-- A document whose mixins may be one deep. -/
def shallow : Job := ⟨⟨"ring.css".toList⟩, { maxMixinDepth := 1 }, .empty []⟩

/-- Refuses a stack that is not guarded. -/
def refuseUnguarded : Compile Unit := do
  let s ← get
  if s.expanding.Nodup ∧ ∀ name ∈ s.expanding, s.mixins.contains name
  then return ()
  else throw .broken

/-- The code with which a run fails. -/
def failureCode? : EStateM.Result Error State Text → Option String
  | .ok _ _ => none
  | .error e _ => e.diagnostic.code

/-- A ring of two mixins: a hundred levels do no more than two, nothing is
refused on the way, and one level is too few. -/
theorem expandAll_cycleGuard_ring :
    (expandLevels 100 "+a;".toList).run shallow ring = (expandLevels 2 "+a;".toList).run shallow ring
    ∧ (watchAll refuseUnguarded [] "+a;".toList).run shallow ring
      = (expandAll [] "+a;".toList).run shallow ring
    ∧ ∃ e s', (expandAll [] "+a;".toList).run shallow ring = .error e s'
      ∧ e.diagnostic.code = some "S-3-4" ∧ shallow.config.maxMixinDepth < ring.mixins.length := by
  obtain ⟨hlevels, hwatch, hlimit⟩ := expandAll_cycleGuard shallow ring "+a;".toList
  refine ⟨hlevels 100 (by decide), hwatch refuseUnguarded ?_, ?_⟩
  · intro s hs
    have hguard : s.expanding.Nodup ∧ ∀ name ∈ s.expanding, s.mixins.contains name :=
      ⟨hs.distinct, hs.defined⟩
    unfold refuseUnguarded
    rw [run_bind]
    show (if _ then _ else _ : Compile Unit).run shallow s = _
    rw [if_pos hguard]
    rfl
  · have hcode : failureCode? ((expandAll [] "+a;".toList).run shallow ring) = some "S-3-4" := by
      decide +kernel
    cases hrun : (expandAll [] "+a;".toList).run shallow ring with
    | ok r s' =>
        rw [hrun] at hcode
        cases hcode
    | error e s' =>
        rw [hrun] at hcode
        exact ⟨e, s', rfl, hcode, hlimit e s' hrun hcode⟩

end Mixin

end Stylesheet
