import Stylesheet.Stage.Standard

/-!
# The compiler

A compiler is a configuration and a list of stages. It turns a source
into a plain stylesheet, with the diagnostics on the way and the time of
the last change to a file that went into it.
-/

set_option autoImplicit false

namespace Stylesheet

/-- A compiler. -/
structure Compiler where
  config : Config
  stages : List Stage := Stage.standard

/-- A compiled document. -/
structure Compiled where
  css : Text
  lastModified : Option Nat
  diagnostics : List Diagnostic
  deriving Repr

namespace Compiler

/-- The state in which the stages start: the document is recorded, and
the flags and options of the request are set. -/
def start (c : Compiler) (tree : FileTree) (flags options : List Text) (source : Source) : State :=
  let s := (State.start c.config source.text).recordFile (tree.fileKey source.path) source.modified
  let s := flags.foldl (State.activateFlag c.config) s
  options.foldl State.setOption s

/-- Compiles a source. -/
def compile (c : Compiler) (tree : FileTree) (flags options : List Text) (source : Source) :
    Except Error Compiled :=
  let job : Job := ⟨source.path, c.config, tree⟩
  match (Stage.runAll c.stages).run job (c.start tree flags options source) with
  | .ok _ s => .ok ⟨s.text, s.lastModified, s.diagnostics⟩
  | .error e _ => .error e

/-- Compiles a file. -/
def compileFile (c : Compiler) (tree : FileTree) (flags options : List Text) (path : Path) :
    Except Error Compiled :=
  match Source.load tree path with
  | .ok source => c.compile tree flags options source
  | .error e => .error e

end Compiler

end Stylesheet
