import Stylesheet.Path

/-!
# File trees

Compiling looks at files but never changes one, so a file system is a
value: a `FileTree` lists directories and files by the names that lead
to them from the root, and knows a working directory, where relative
paths start. A file holds text, or bytes that are no text.

A tree may also have symbolic links. A link is a name that stands for a
path, and whoever comes to it goes on along that path. So one file can go
by names in several directories, while its place, and with it its key,
is one. A file that a file system keeps under two places without a link
counts as two files.
-/

set_option autoImplicit false

namespace Stylesheet

/-- Why a file cannot be read. -/
inductive ReadError where
  | notFound
  | notDirectory
  | isDirectory
  /-- The way to the file goes over more links than are followed. -/
  | tooManyLinks
  /-- The bytes are not valid UTF-8. -/
  | notText
  /-- Listing a directory failed. -/
  | listing (dir : Path) (cause : ReadError)
  deriving Repr, DecidableEq

/-- The wording of a read error. -/
def ReadError.message : ReadError → String
  | notFound => "No such file or directory (os error 2)"
  | notDirectory => "Not a directory (os error 20)"
  | isDirectory => "Is a directory (os error 21)"
  | tooManyLinks => "Too many levels of symbolic links (os error 40)"
  | notText => "stream did not contain valid UTF-8"
  | listing dir cause => "IO error for operation on " ++ dir.toString ++ ": " ++ cause.message

/-- A file. -/
structure File where
  /-- Its text; absent when the bytes are no text. -/
  content : Option Text
  /-- Seconds since 1970. -/
  modified : Option Nat
  deriving Repr, DecidableEq

/-- What stands at a place of a tree. -/
inductive Entry where
  | directory
  | file (f : File)
  deriving Repr, DecidableEq

/-- The names that lead from the root to a place. -/
abbrev Place := List Text

/-- A file system as seen by one run. -/
structure FileTree where
  /-- The working directory. -/
  workDir : Place
  entries : List (Place × Entry)
  /-- The paths that links stand for. They are taken from the directory
  that the link is in. Where there is an entry, no link is seen. -/
  links : List (Place × Path) := []
  deriving Repr

namespace FileTree

/-- A tree with nothing but a working directory. -/
def empty (workDir : Place) : FileTree := { workDir, entries := [] }

/-- What stands at a place. The root and the directories that lead to
the working directory are always there. -/
def entry? (tree : FileTree) (place : Place) : Option Entry :=
  if place.isPrefixOf tree.workDir then some .directory else tree.entries.lookup place

/-- Puts an entry at a place, and directories where its parents are
missing. -/
def add (tree : FileTree) (place : Place) (e : Entry) : FileTree :=
  let parents := (List.range place.length).map place.take
  let missing := parents.filter fun p => (tree.entry? p).isNone
  { tree with
    entries := tree.entries.filter (fun x => x.1 != place)
      ++ missing.map (fun p => (p, .directory)) ++ [(place, e)] }

/-- The path that a link at a place stands for. -/
def link? (tree : FileTree) (place : Place) : Option Path := tree.links.lookup place

/-- Where a path starts that stands in a directory. -/
def startFrom (dir : Place) (p : Path) : Place := if p.isAbsolute then [] else dir

/-- Follows stretches of a path from a place, up to the first link. From
there `across` goes on, with the path of the link before what is left. -/
def walk (tree : FileTree) (across : Place → List Text → Except ReadError Place) (place : Place) :
    List Text → Except ReadError Place
  | [] => .ok place
  | s :: rest =>
    if tree.entry? place ≠ some .directory then .error .notDirectory
    else if s = [] ∨ s = ['.'] then walk tree across place rest
    else if s = ['.', '.'] then walk tree across place.dropLast rest
    else if (tree.entry? (place ++ [s])).isSome then walk tree across (place ++ [s]) rest
    else match tree.link? (place ++ [s]) with
      | none => .error .notFound
      | some target => across (startFrom place target) (target.stretches ++ rest)

/-- Follows stretches of a path from a place, over a number of links at
most. -/
def follow (tree : FileTree) : Nat → Place → List Text → Except ReadError Place
  | 0 => walk tree fun _ _ => .error .tooManyLinks
  | links + 1 => walk tree (follow tree links)

/-- How many links are followed on the way to a file. -/
def linkLimit : Nat := 40

/-- The place that a path leads to. -/
def resolve (tree : FileTree) (p : Path) : Except ReadError Place :=
  if p.text.isEmpty then .error .notFound
  else follow tree linkLimit (startFrom tree.workDir p) p.stretches

/-- What a path leads to. -/
def find? (tree : FileTree) (p : Path) : Except ReadError Entry := do
  let place ← tree.resolve p
  match tree.entry? place with
  | some e => .ok e
  | none => .error .notFound

/-- Whether a path leads anywhere. -/
def pathExists (tree : FileTree) (p : Path) : Bool := (tree.find? p).isOk

/-- Whether a path leads to a file. -/
def isFile (tree : FileTree) (p : Path) : Bool :=
  match tree.find? p with
  | .ok (.file _) => true
  | _ => false

/-- Reads the file that a path leads to: its text and its time. -/
def read (tree : FileTree) (p : Path) : Except ReadError (Text × Option Nat) := do
  match ← tree.find? p with
  | .directory => .error .isDirectory
  | .file f =>
    match f.content with
    | some t => .ok (t, f.modified)
    | none => .error .notText

/-- The path of a place, from the root. -/
def pathTo (place : Place) : Path := ⟨'/' :: Text.joinWith ['/'] place⟩

/-- The identity of a file: the path from the root that leads to it, or
the path as written when it leads nowhere. -/
def fileKey (tree : FileTree) (p : Path) : Path :=
  match tree.resolve p with
  | .ok place => pathTo place
  | .error _ => p

/-- Places in the order in which directories are listed: by name, each
directory with all below it. -/
def placeOrder : Place → Place → Ordering
  | [], [] => .eq
  | [], _ :: _ => .lt
  | _ :: _, [] => .gt
  | a :: s, b :: t =>
    match Text.order a b with
    | .eq => placeOrder s t
    | o => o

/-- Whether the last name of a path is that of a link. -/
def isLink (tree : FileTree) (p : Path) : Bool :=
  match p.stretches.reverse with
  | [] => false
  | name :: front =>
    match follow tree linkLimit (startFrom tree.workDir p) front.reverse with
    | .error _ => false
    | .ok dir => (tree.entry? (dir ++ [name])).isNone && (tree.link? (dir ++ [name])).isSome

/-- The files at or below a path, in listing order, each under the path
that was given. The path itself may be a link to a directory; all other
links are left out, to whatever they lead. -/
def filesUnder (tree : FileTree) (dir : Path) : Except ReadError (List Path) :=
  match tree.resolve dir with
  | .error e => .error (.listing dir e)
  | .ok place =>
    if tree.isLink dir && tree.entry? place ≠ some .directory then .ok [] else
    let below := tree.entries.filterMap fun (p, e) =>
      match e, place.isPrefixOf? p with
      | .file _, some rest => some rest
      | _, _ => none
    let sorted := below.mergeSort fun a b => placeOrder a b != .gt
    .ok (sorted.map fun names => names.foldl (fun path n => path.join ⟨n⟩) dir)

/-- How many files there are. -/
def fileCount (tree : FileTree) : Nat :=
  tree.entries.countP fun (_, e) => match e with
    | .file _ => true
    | .directory => false

/-- The place of a new file: a new name in an existing directory. A link
that leads nowhere stands for the name it was given. -/
def newPlace (tree : FileTree) (links : Nat) (start : Place) (stretches : List Text) :
    Except ReadError Place :=
  match stretches.reverse with
  | [] => .error .notFound
  | name :: front =>
    match follow tree linkLimit start front.reverse with
    | .error e => .error e
    | .ok dir =>
      if tree.entry? dir ≠ some .directory then .error .notDirectory
      else if name.isEmpty then .error .isDirectory
      else match links, tree.link? (dir ++ [name]) with
        | _, none => .ok (dir ++ [name])
        | 0, some _ => .error .tooManyLinks
        | links + 1, some target => newPlace tree links (startFrom dir target) target.stretches

/-- Where a file can be written: an existing one, or a new name in an
existing directory. -/
def writePlace (tree : FileTree) (p : Path) : Except ReadError Place :=
  match tree.find? p with
  | .ok (.file _) => tree.resolve p
  | .ok .directory => .error .isDirectory
  | .error .notFound =>
    if p.text.isEmpty then .error .notFound
    else newPlace tree linkLimit (startFrom tree.workDir p) p.stretches
  | .error e => .error e

/-- The tree with a text written to a file. -/
def write (tree : FileTree) (p : Path) (t : Text) : Except ReadError FileTree :=
  (tree.writePlace p).map fun place => tree.add place (.file ⟨some t, none⟩)

end FileTree

end Stylesheet
