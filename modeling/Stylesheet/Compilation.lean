import Stylesheet.Error
import Stylesheet.Grid
import Stylesheet.Mixin.Definition
import Stylesheet.Source

/-!
# Compilations

A compilation is the work on one document. Its `Job` does not change:
the path of the document, the configuration, and the files there are.
Its `State` is what the stages of the compiler read and write. An action
of type `Compile` sees the job, changes the state, and may end in an
error; the changes made before an error remain.
-/

set_option autoImplicit false

namespace Stylesheet

/-- What a compilation is given. -/
structure Job where
  path : Path
  config : Config
  tree : FileTree

/-- A file that went into a document, with the time of its last change
where that is known. -/
structure UsedFile where
  path : Path
  modified : Option Nat
  deriving Repr

/-- What a compilation has so far. -/
structure State where
  text : Text := []
  constants : Table Text := .empty
  mixins : Table Mixin.Definition := .empty
  /-- The mixins that are being expanded, outermost first. -/
  expanding : List Text := []
  grid : Option Grid := none
  /-- The active flags, in order of activation, each once. -/
  flags : List Text := []
  /-- The options, in order, each once. -/
  options : List Text := []
  files : List UsedFile := []
  diagnostics : List Diagnostic := []

/-- Adds a name to a list that holds each name once. -/
def insertOnce (names : List Text) (name : Text) : List Text :=
  if names.contains name then names else names ++ [name]

namespace State

/-- The state at the start of a compilation: the configured flags are
active, unless flags are disabled. -/
def start (config : Config) (text : Text) : State :=
  { text, flags := if config.disableFlags then [] else config.flags.foldl insertOnce [] }

/-- Activates a flag, unless flags are disabled. -/
def activateFlag (config : Config) (s : State) (name : Text) : State :=
  if config.disableFlags then s else { s with flags := insertOnce s.flags name }

/-- Whether a flag is active. -/
def isFlagActive (s : State) (name : Text) : Bool := s.flags.contains name

/-- Sets an option. -/
def setOption (s : State) (name : Text) : State := { s with options := insertOnce s.options name }

/-- Whether an option is set. -/
def hasOption (s : State) (name : Text) : Bool := s.options.contains name

/-- Whether a file went into the document. -/
def hasFile (s : State) (path : Path) : Bool := s.files.any fun f => f.path.same path

/-- Records a file, if it is not recorded yet. -/
def recordFile (s : State) (path : Path) (modified : Option Nat) : State :=
  if s.hasFile path then s else { s with files := s.files ++ [⟨path, modified⟩] }

/-- The latest time at which a file of the document changed. -/
def lastModified (s : State) : Option Nat := (s.files.filterMap (·.modified)).max?

end State

/-- An action of a compilation. -/
abbrev Compile := ReaderT Job (EStateM Error State)

namespace Compile

/-- The configuration. -/
def config : Compile Config := return (← read).config

/-- Ends the compilation with a diagnostic about the document. -/
def abort {α : Type} (d : Diagnostic) : Compile α := do
  throw (.fatal (d.located (← read).path).promoted)

/-- Reports a diagnostic about the document. It is kept, unless the
threshold of the configuration makes it abort. -/
def report (d : Diagnostic) : Compile Unit := do
  let job ← read
  if d.severity.abortsAt job.config.errorThreshold then abort d
  else modify fun s => { s with diagnostics := s.diagnostics ++ [d.located job.path] }

/-- Goes on with the value of a scan. -/
def ofScan {α : Type} : Except ScanError α → Compile α
  | .ok a => pure a
  | .error e => throw (.scan e)

/-- Fills the placeholders of a text from a table of constants. -/
def interpolateWith (constants : Table Text) (t : Text) : Compile Text :=
  match Placeholder.interpolate constants t with
  | .ok t => pure t
  | .error e => abort e.diagnostic

/-- Fills the placeholders of a text. -/
def interpolate (t : Text) : Compile Text := do interpolateWith (← get).constants t

/-- Resolves the conditionals of a text. -/
def resolveConditionals (t : Text) : Compile Text :=
  match Conditional.resolve t with
  | .ok t => pure t
  | .error (.noOperator expression) => abort (noOperatorDiagnostic expression)
  | .error (.scan e) => throw (.scan e)
  | .error .broken => throw .broken

/-- Reads a stylesheet. -/
def parse (t : Text) : Compile (List Node) :=
  match Node.parse t with
  | .ok nodes => pure nodes
  | .error (.scan e) => throw (.scan e)
  | .error .broken => throw .broken

/-- Sets the text of the document. -/
def setText (t : Text) : Compile Unit := modify fun s => { s with text := t }

/-- Takes the text of the document away, so that an action that fails
before it puts a text back leaves none. -/
def takeText : Compile Text := do
  let t := (← get).text
  setText []
  return t

/-- Gives a constant a value. -/
def setConstant (name value : Text) : Compile Unit :=
  modify fun s => { s with constants := s.constants.set name value }

/-- Runs an action with some constants set. Behind it they are made what
they were before, also if it ends in an error. -/
def withConstants {α : Type} (pairs : List (Text × Text)) (x : Compile α) : Compile α := do
  let (shadowed, saved) := (← get).constants.shadow pairs
  modify fun s => { s with constants := shadowed }
  try x
  finally modify fun s => { s with constants := s.constants.restore saved }

/-- Runs an action while one mixin more is being expanded. -/
def whileExpanding {α : Type} (name : Text) (x : Compile α) : Compile α := do
  modify fun s => { s with expanding := s.expanding ++ [name] }
  try x
  finally modify fun s => { s with expanding := s.expanding.dropLast }

/-- Records a file and says whether it is new. -/
def recordFile (path : Path) (modified : Option Nat) : Compile Bool := do
  let s ← get
  set (s.recordFile path modified)
  return !s.hasFile path

/-- Reads a document. -/
def loadSource (path : Path) : Compile Source := do
  match Source.load (← read).tree path with
  | .ok source => return source
  | .error e => throw e

end Compile

end Stylesheet
