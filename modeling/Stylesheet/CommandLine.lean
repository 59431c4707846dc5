import Stylesheet.Build
import Stylesheet.Config.Reader
import Stylesheet.Json.Printer

/-!
# The command line

`build` compiles documents into one stylesheet, which is printed or
written to a file; `check` only reports. `CommandLine.run` says what a
run prints, which files there are afterwards, and how it exits: 0 when
all went well, 1 when a document or the configuration failed, 2 when the
arguments make no sense.
-/

set_option autoImplicit false

namespace Stylesheet

namespace CommandLine

/-- The settings that arguments give. -/
structure Settings where
  files : List Path := []
  config : Option Path := none
  flags : List Text := []
  options : List Text := []
  errorThreshold : Option Nat := none
  json : Bool := false
  output : Option Path := none
  minify : Bool := false

/-- The two commands. -/
inductive Command where
  | build
  | check
  deriving DecidableEq

/-- Why arguments do not lead to a command. -/
inductive Stop where
  | usage
  | help
  | version
  deriving Repr, DecidableEq

/-- The options of a command. -/
inductive Parameter where
  | config
  | flag
  | option
  | errorThreshold
  | output
  | json
  | minify
  | help
  deriving DecidableEq

/-! ### Arguments -/

/-- The option with a long name. Two of them belong to `build` only. -/
def long? (command : Command) (name : Text) : Option Parameter :=
  let common := [("config", Parameter.config), ("flag", .flag), ("option", .option),
    ("error-threshold", .errorThreshold), ("json", .json), ("help", .help)]
  let more := match command with
    | .build => [("output", Parameter.output), ("minify", .minify)]
    | .check => []
  (common ++ more).lookup (String.ofList name)

/-- The option with a short name. -/
def short? (command : Command) (letter : Char) : Option Parameter :=
  match letter with
  | 'c' => some .config
  | 'f' => some .flag
  | 'h' => some .help
  | 'o' => if command = .build then some .output else none
  | _ => none

/-- Whether an option takes a value. -/
def Parameter.takesValue : Parameter → Bool
  | json | minify | help => false
  | _ => true

/-- Sets an option that takes a value. Paths must not be empty, and only
flags and options may be given several times. -/
def Settings.setValue (s : Settings) (o : Parameter) (value : Text) : Except Stop Settings :=
  match o with
  | .config =>
    if s.config.isSome || value.isEmpty then .error .usage else .ok { s with config := some ⟨value⟩ }
  | .output =>
    if s.output.isSome || value.isEmpty then .error .usage else .ok { s with output := some ⟨value⟩ }
  | .flag => .ok { s with flags := s.flags ++ [value] }
  | .option => .ok { s with options := s.options ++ [value] }
  | .errorThreshold =>
    match s.errorThreshold, Decimal.readInt64? value with
    | none, some n =>
      if 0 ≤ n ∧ n < 256 then .ok { s with errorThreshold := some n.toNat } else .error .usage
    | _, _ => .error .usage
  | _ => .error .usage

/-- Sets an option without a value. -/
def Settings.setSwitch (s : Settings) (o : Parameter) : Except Stop Settings :=
  match o with
  | .json => if s.json then .error .usage else .ok { s with json := true }
  | .minify => if s.minify then .error .usage else .ok { s with minify := true }
  | .help => .error .help
  | _ => .error .usage

/-- Adds a file. -/
def Settings.addFile (s : Settings) (file : Text) : Except Stop Settings :=
  if file.isEmpty then .error .usage else .ok { s with files := s.files ++ [⟨file⟩] }

/-- An argument taken apart. -/
inductive Argument where
  | file (t : Text)
  /-- An option, with the value that is attached to it. -/
  | option (o : Parameter) (value : Option Text)
  /-- From here on there are files only. -/
  | endOfOptions
  | unknown

/-- Takes an argument apart. -/
def Argument.of (command : Command) (t : Text) : Argument :=
  match t with
  | ['-', '-'] => .endOfOptions
  | '-' :: '-' :: body =>
    let (name, value) := match Text.splitOnce '=' body with
      | some (name, value) => (name, some value)
      | none => (body, none)
    match long? command name with
    | some o => .option o value
    | none => .unknown
  | '-' :: letter :: body =>
    match short? command letter with
    | some o =>
      if !o.takesValue then .option o none
      else
        let value := match body with
          | [] => none
          | '=' :: value => some value
          | value => some value
        .option o value
    | none => .unknown
  | _ => .file t

/-- Whether an argument can be the value of the option before it. -/
def isValue (t : Text) : Bool := t == ['-'] || t.head? != some '-'

/-- Reads the arguments of a command. -/
def readArguments (command : Command) (s : Settings) : List Text → Except Stop Settings
  | [] => .ok s
  | t :: rest =>
    match Argument.of command t with
    | .unknown => .error .usage
    | .endOfOptions => rest.foldlM Settings.addFile s
    | .file file => do readArguments command (← s.addFile file) rest
    | .option o value =>
      match o.takesValue, value, rest with
      | true, some value, rest => do readArguments command (← s.setValue o value) rest
      | true, none, value :: rest =>
        if isValue value then do readArguments command (← s.setValue o value) rest
        else .error .usage
      | true, none, [] => .error .usage
      | false, none, rest => do readArguments command (← s.setSwitch o) rest
      | false, some _, _ => .error .usage

/-- The command with a given name. -/
def command? (name : Text) : Option Command :=
  [("build", Command.build), ("check", .check)].lookup (String.ofList name)

/-- Reads the arguments of a run. At least one file is needed. -/
def parse (args : List Text) : Except Stop (Command × Settings) :=
  match args with
  | [] => .error .usage
  | t :: rest =>
    if t = "--version".toList ∨ "-V".toList.isPrefixOf t then .error .version
    else if t = "--help".toList ∨ "-h".toList.isPrefixOf t then .error .help
    else if t = "help".toList then
      match rest with
      | [] => .error .help
      | [name] => if (command? name).isSome ∨ name = t then .error .help else .error .usage
      | _ => .error .usage
    else match command? t with
      | none => .error .usage
      | some command => do
        let s ← readArguments command {} rest
        if s.files.isEmpty then .error .usage else .ok (command, s)

/-! ### Running -/

/-- What a run leaves behind. -/
structure Outcome where
  code : Nat
  stdout : Text := []
  stderr : Text := []
  /-- The stylesheet that is written to a file. -/
  written : Option (Path × Text) := none

/-- The text of an error that ends a run, with its causes from the
outside in. -/
def errorText (message : String) (causes : List String) : Text :=
  let lines := match causes with
    | [] => []
    | [cause] => ["", "Caused by:", "    " ++ cause]
    | causes => ["", "Caused by:"]
      ++ causes.zipIdx.map fun (cause, i) => "    " ++ toString i ++ ": " ++ cause
  (("Error: " ++ message) :: lines).flatMap fun line => line.toList ++ ['\n']

/-- The causes of a configuration error. -/
def causesOf : ConfigError → List String
  | .unreadable path cause => [(ConfigError.unreadable path cause).message, cause]
  | e => [e.message]

/-- The configuration of a run. -/
def loadConfig (tree : FileTree) (s : Settings) : Except Text Config :=
  let loaded : Except Text Config := match s.config with
    | none => .ok {}
    | some path =>
      match Config.load tree path with
      | .ok config => .ok config
      | .error e =>
        .error (errorText ("Failed to load configuration from " ++ path.toString) (causesOf e))
  match loaded with
  | .error e => .error e
  | .ok config =>
    match { config with errorThreshold := s.errorThreshold.getD config.errorThreshold }.validate with
    | .ok config => .ok config
    | .error e => .error (errorText "Invalid command-line options" (causesOf e))

/-- The diagnostics of a build as they are printed. -/
def report (json : Bool) (o : BuildOutput) : Text :=
  o.allDiagnostics.flatMap fun d =>
    if json then d.toJson.print ++ ['\n'] else d.toText.toList

/-- Runs a command. -/
def execute (tree : FileTree) (command : Command) (s : Settings) : Outcome :=
  match loadConfig tree s with
  | .error e => { code := 1, stderr := e }
  | .ok config =>
    let format := { config.format with compress := config.format.compress || s.minify }
    let compiler : Compiler := { config := { config with format } }
    match compiler.build tree { files := s.files, flags := s.flags, options := s.options } with
    | .error _ => { code := 101 }
    | .ok output =>
      let code := if output.isSuccess then 0 else 1
      let stderr := report s.json output
      match command, s.output with
      | .check, _ => { code, stderr }
      | .build, none => { code, stderr, stdout := output.css }
      | .build, some path =>
        match tree.writePlace path with
        | .ok _ => { code, stderr, written := some (path, output.css) }
        | .error e =>
          { code := 1
            stderr := stderr ++ errorText ("Failed to write " ++ path.toString) [e.message] }

/-- The text that `--version` prints. -/
def versionText : Text := "scaffold 0.1.0\n".toList

/-- The text that `--help` prints. -/
def helpText : Text := "Usage: scaffold <build|check> [OPTIONS] <FILES>...\n".toList

/-- What a run with some arguments leaves behind. -/
def run (tree : FileTree) (args : List Text) : Outcome :=
  match parse args with
  | .error .usage => { code := 2, stderr := helpText }
  | .error .help => { code := 0, stdout := helpText }
  | .error .version => { code := 0, stdout := versionText }
  | .ok (command, settings) => execute tree command settings

end CommandLine

end Stylesheet
