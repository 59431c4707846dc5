import Stylesheet.Compilation

/-!
# Includes

`@include 'file';` stands for the text of another file, in which
includes are resolved in turn, from the directory of that file. Each file
goes into a document once: a directive for a file that is already there
stands for nothing. Directives inside literals mean nothing.

A file that is included is new to the document, so includes can be
nested no deeper than there are files; that number bounds the recursion.
-/

set_option autoImplicit false

namespace Stylesheet

namespace Include

/-- A stretch of text that has the form of a directive. -/
inductive Item where
  /-- The name of a file, trimmed. -/
  | directive (name : Text)
  /-- A stretch that begins inside a literal. -/
  | inert (t : Text)
  deriving Repr, DecidableEq

/-- Reads the name between two quotes on one line: the name, and the text
behind the closing quote. -/
def quoted? (t : Text) : Option (Text × Text) :=
  match t with
  | [] => none
  | quote :: r =>
    if !isQuote quote then none
    else
      let name := r.takeWhile fun c => c != quote && c != '\n'
      match r.dropWhile fun c => c != quote && c != '\n' with
      | c :: rest => if c = quote ∧ name ≠ [] then some (name, rest) else none
      | [] => none

/-- Reads the form of a directive, with the blanks and the semicolon
behind it: the name and the length. -/
def take? (t : Text) : Option (Text × Nat) :=
  match Text.after? "@include".toList t with
  | none => none
  | some r =>
    match quoted? (r.dropWhile isBlank) with
    | none => none
    | some (name, rest) =>
      if !(r.head?.any isBlank) then none
      else
        let behind := match rest.dropWhile isBlank with
          | ';' :: s => s
          | s => s
        some (Text.trim name, t.length - behind.length)

/-- The item at a place, given the literals of the text. -/
def at? (spans : List Span) (behind ahead : Text) : Option (Item × Nat) :=
  match take? ahead with
  | none => none
  | some (name, n) =>
    if insideAny spans (Text.size behind) then some (.inert (ahead.take n), n)
    else some (.directive name, n)

/-- Takes a text apart at its directives. -/
def cut (t : Text) : Cut Item := Cut.scan (at? (literalSpans t)) t

/-- The path that a name stands for, and the extension that was replaced
because it is another one. A name without an extension gets one. -/
def normalize (name : Text) : Path × Option Text :=
  let path : Path := ⟨name⟩
  match path.extension? with
  | none => (⟨name ++ ".css".toList⟩, none)
  | some extension =>
    if Text.sameLetters extension "css".toList then (path, none)
    else (path.withExtension "css".toList, some extension)

/-- Where a file is looked for: in a directory and then in the include
paths, unless its path is absolute. -/
def candidates (path dir : Path) (includePaths : List Path) : List Path :=
  if path.isAbsolute then [path] else (dir :: includePaths).map (·.join path)

/-- The diagnostic of a file that is no stylesheet. -/
def extensionDiagnostic (name extension : Text) : Diagnostic :=
  { severity := .warning, title := "Invalid include extension", code := some "S-1-2",
    problem := some ("`" ++ String.ofList name ++ "` is not a .css file"),
    details := [⟨.note, "Replaced `." ++ String.ofList extension ++ "` with `.css`"⟩] }

/-- The diagnostic of a file that is nowhere. -/
def notFoundDiagnostic (path : Path) (searched : List Path) : Diagnostic :=
  { severity := .fatal, title := "Included file not found", code := some "S-1-1",
    problem := some ("Cannot find `" ++ path.toString ++ "`"),
    details := searched.map fun p => ⟨.info, "Searched " ++ p.toString⟩ }

/-- The file that a directive is about. -/
def locate (dir : Path) (name : Text) : Compile Path := do
  let (path, replaced) := normalize name
  match replaced with
  | some extension => Compile.report (extensionDiagnostic name extension)
  | none => pure ()
  let job ← read
  let places := candidates path dir job.config.includePaths
  match places.find? job.tree.isFile with
  | some found => return found
  | none => Compile.abort (notFoundDiagnostic path places)

/-- What an item stands for. `deeper` resolves the includes of a text from
a directory, one level further down. -/
def expandItem (deeper : Option (Path → Text → Compile Text)) (dir : Path) :
    Item → Compile Text
  | .inert t => return t
  | .directive name => do
    let path ← locate dir name
    let source ← Compile.loadSource path
    let new ← Compile.recordFile ((← read).tree.fileKey path) source.modified
    match deeper with
    | some expand => if new then expand (path.parent?.getD ⟨[]⟩) source.text else return []
    | none => return []

/-- Resolves includes down to a number of levels. -/
def expandLevels : Nat → Path → Text → Compile Text
  | 0, dir, t => (cut t).fillM (expandItem none dir)
  | levels + 1, dir, t => (cut t).fillM (expandItem (some (expandLevels levels)) dir)

end Include

/-- Resolves the includes of a text that lies in a directory. -/
def resolveIncludes (dir : Path) (t : Text) : Compile Text := do
  Include.expandLevels (← read).tree.fileCount dir t

end Stylesheet
