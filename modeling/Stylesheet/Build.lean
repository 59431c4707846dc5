import Stylesheet.Compiler

/-!
# Builds

A build compiles several documents into one stylesheet. A document that
fails leaves a diagnostic and nothing else; the others are not affected.
-/

set_option autoImplicit false

namespace Stylesheet

/-- What a build is asked for. -/
structure BuildRequest where
  files : List Path
  flags : List Text := []
  options : List Text := []
  deriving Repr, DecidableEq

/-- A document that failed. -/
structure Failure where
  path : Path
  diagnostic : Diagnostic
  deriving Repr

/-- The outcome of a build. -/
structure BuildOutput where
  css : Text := []
  lastModified : Option Nat := none
  diagnostics : List Diagnostic := []
  failures : List Failure := []
  deriving Repr

namespace BuildOutput

/-- The size of the stylesheet in bytes. -/
def length (o : BuildOutput) : Nat := Text.size o.css

/-- Whether no document failed. -/
def isSuccess (o : BuildOutput) : Bool := o.failures.isEmpty

/-- The diagnostics of the documents, and then those of the failures. -/
def allDiagnostics (o : BuildOutput) : List Diagnostic :=
  o.diagnostics ++ o.failures.map (·.diagnostic)

/-- Adds a compiled document. -/
def addDocument (o : BuildOutput) (d : Compiled) : BuildOutput :=
  { o with
    css := o.css ++ d.css
    lastModified := (o.lastModified.toList ++ d.lastModified.toList).max?
    diagnostics := o.diagnostics ++ d.diagnostics }

/-- Adds a failure. -/
def addFailure (o : BuildOutput) (path : Path) (d : Diagnostic) : BuildOutput :=
  { o with failures := o.failures ++ [⟨path, d.located path⟩] }

end BuildOutput

namespace Compiler

/-- The diagnostic of a file that is no stylesheet. -/
def unsupportedDiagnostic (path : Path) : Diagnostic :=
  { severity := .fatal, title := "Unsupported input", code := some "S-1-3",
    problem := some ("`" ++ path.toString ++ "` is not a .css file") }

/-- Adds one document to a build. A text that is cut inside a character
ends the whole build. -/
def buildFile (c : Compiler) (tree : FileTree) (request : BuildRequest) (o : BuildOutput)
    (path : Path) : Except BrokenCharacter BuildOutput :=
  if !path.hasExtension "css".toList then .ok (o.addFailure path (unsupportedDiagnostic path))
  else match c.compileFile tree request.flags request.options path with
    | .ok d => .ok (o.addDocument d)
    | .error .broken => .error {}
    | .error e => .ok (o.addFailure path e.diagnostic)

/-- Builds the documents of a request. -/
def build (c : Compiler) (tree : FileTree) (request : BuildRequest) :
    Except BrokenCharacter BuildOutput :=
  request.files.foldlM (c.buildFile tree request) {}

end Compiler

end Stylesheet
