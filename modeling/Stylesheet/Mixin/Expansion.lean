import Stylesheet.Compilation
import Stylesheet.Mixin.Invocation

/-!
# Mixin expansion

An invocation stands for the template of its mixin: placeholders filled,
with the parameters set among the constants of the document, conditionals
resolved, invocations inside expanded, and the ends trimmed. The constants
are put back before the invocations inside are expanded, so those do not
see the parameters.

The mixins that are being expanded are kept on a stack. An invocation of
an unknown mixin, or of one on the stack, is removed with a diagnostic, so
the stack never holds a name twice. The recursion is on the number of
levels that the configured depth still allows.
-/

set_option autoImplicit false

namespace Stylesheet

namespace Mixin

/-! ### What is reported -/

/-- The mixin of an invocation is not defined. -/
def unknownDiagnostic (name : Text) : Diagnostic :=
  { severity := .info, title := "Unknown mixin", code := some "S-3-2",
    problem := some ("`+" ++ String.ofList name ++ "` was invoked but never defined"),
    details := [⟨.note, "The invocation was removed"⟩] }

/-- The mixin of an invocation is being expanded already. `stack` are the
mixins on the way to it. -/
def recursiveDiagnostic (stack : List Text) (name : Text) : Diagnostic :=
  { severity := .warning, title := "Recursive mixin", code := some "S-3-3",
    problem := some ("`+" ++ String.ofList name ++ "` invokes itself"),
    details := [⟨.error, String.ofList (Text.joinWith " -> ".toList (stack ++ [name]))⟩,
      ⟨.note, "The recursive invocation was removed"⟩] }

/-- There is no level left for an invocation. -/
def tooDeepDiagnostic (maxDepth : Nat) (name : Text) : Diagnostic :=
  { severity := .fatal, title := "Mixin expansion too deep", code := some "S-3-4",
    problem := some ("Expanding `+" ++ String.ofList name ++ "` exceeded the maximum depth of "
      ++ toString maxDepth),
    hints := ["Raise `max_mixin_depth` in the configuration?"] }

/-- A parameter has no argument and no default. -/
def missingParamDiagnostic (name param : Text) : Diagnostic :=
  { severity := .fatal, title := "Missing mixin parameter", code := some "S-3-1",
    problem := some ("`+" ++ String.ofList name ++ "` requires `$" ++ String.ofList param
      ++ "` but no argument or default was given") }

/-! ### Expansion -/

/-- The value of each parameter: its argument, or else its default with
the placeholders filled from the constants of the document. -/
def bindParams (name : Text) : List Param → List Text → Compile (List (Text × Text))
  | [], _ => return []
  | p :: params, arg :: args => return (p.name, arg) :: (← bindParams name params args)
  | p :: params, [] => do
    let value ← match p.default with
      | some default => Compile.interpolate default
      | none => Compile.abort (missingParamDiagnostic name p.name)
    return (p.name, value) :: (← bindParams name params [])

/-- The template of a mixin with its parameters filled in and its
conditionals resolved. -/
def instantiate (d : Definition) (args : List Text) : Compile Text := do
  let bindings ← bindParams d.name d.params args
  let filled ← Compile.withConstants bindings (Compile.interpolate d.template)
  Compile.resolveConditionals filled

/-- Expands one invocation. `deeper` expands a text one level further
down, and is absent on the last level. -/
def expandInvocation (deeper : Option (Text → Compile Text)) (i : Invocation) : Compile Text := do
  let s ← get
  match s.mixins.get? i.name with
  | none =>
    Compile.report (unknownDiagnostic i.name)
    return []
  | some definition =>
    if s.expanding.contains i.name then
      Compile.report (recursiveDiagnostic s.expanding i.name)
      return []
    else
      match deeper with
      | none => Compile.abort (tooDeepDiagnostic (← Compile.config).maxMixinDepth i.name)
      | some expand =>
        let template ← instantiate definition i.args
        let expanded ← Compile.whileExpanding i.name (expand template)
        return Text.trim expanded

/-- Expands the invocations of a text, from left to right. -/
def expandWith (deeper : Option (Text → Compile Text)) (t : Text) : Compile Text := do
  let cut ← Compile.ofScan (Invocation.cut t)
  cut.fillM (expandInvocation deeper)

/-- Expands the invocations of a text, down to a number of levels. -/
def expandLevels : Nat → Text → Compile Text
  | 0 => expandWith none
  | levels + 1 => expandWith (some (expandLevels levels))

/-- Expands the invocations of a text while the mixins on the stack are
being expanded. -/
def expandAll (stack : List Text) (t : Text) : Compile Text := do
  modify fun s => { s with expanding := stack }
  expandLevels ((← Compile.config).maxMixinDepth - stack.length) t

end Mixin

end Stylesheet
