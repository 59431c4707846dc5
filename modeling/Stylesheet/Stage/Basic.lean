import Stylesheet.Compilation

/-!
# Stages

A document is compiled in five phases. A stage takes part in some of
them; within a phase the stages of a registry run in its order.
-/

set_option autoImplicit false

namespace Stylesheet

/-- The phases of a compilation. -/
inductive Phase where
  | importing
  | preProcess
  | process
  | postProcess
  | formatting
  deriving Repr, DecidableEq

namespace Phase

/-- All phases in order. -/
def all : List Phase := [importing, preProcess, process, postProcess, formatting]

/-- The name of a phase. -/
def name : Phase → String
  | importing => "import"
  | preProcess => "pre-process"
  | process => "process"
  | postProcess => "post-process"
  | formatting => "formatting"

/-- The phase with a given name. -/
def ofName? (s : String) : Option Phase := all.find? (·.name == s)

end Phase

/-- A stage of the compiler. -/
structure Stage where
  name : String
  /-- The phases that it takes part in. -/
  phases : List Phase
  run : Phase → Compile Unit

namespace Stage

/-- Runs the stages of a phase. -/
def runPhase (stages : List Stage) (phase : Phase) : Compile Unit :=
  (stages.filter fun s => decide (phase ∈ s.phases)).forM fun s => s.run phase

/-- Runs all phases. -/
def runAll (stages : List Stage) : Compile Unit := Phase.all.forM (runPhase stages)

end Stage

end Stylesheet
