import Stylesheet.CommandLine

/-!
# The program

The outer layer: it takes a picture of the files that a run can see, asks
`CommandLine.run` what the run comes to, and then prints and writes that.
A run sees the files below the working directory, those that lie beside or
below a file named on the command line, and those that links among them
lead to.
-/

set_option autoImplicit false

namespace Stylesheet

namespace Snapshot

/-- The place of a path from the root, given its parts. -/
def placeOf (parts : List String) : Place :=
  (parts.filter (!·.isEmpty)).map String.toList

/-- What an action gives, if it does not fail. -/
def attempt {α : Type} (act : IO α) : IO (Option α) := do
  try return some (← act) catch _ => return none

/-- Adds what a path leads to: a file, or a directory with all below it.
A name in a directory that leads elsewhere is a link. It is added with the
place it leads to, and so is what it leads to unless that is there already:
links that lead back to a directory around them are not followed again.
Links that lead nowhere are left out. -/
partial def addPath (tree : FileTree) (path : String) : IO FileTree := do
  let some full ← attempt (IO.FS.realPath path) | return tree
  let place := placeOf full.components
  if ← full.isDir then
    let some entries ← attempt full.readDir | return tree
    let tree := if (tree.entry? place).isSome then tree else tree.add place .directory
    entries.foldlM (fun tree entry => do
      let some target ← attempt (IO.FS.realPath entry.path) | return tree
      let name := place ++ [entry.fileName.toList]
      let real := placeOf target.components
      let tree := if real = name then tree
        else { tree with links := (name, FileTree.pathTo real) :: tree.links }
      if (tree.entry? real).isSome then return tree
      addPath tree target.toString) tree
  else
    let some bytes ← attempt (IO.FS.readBinFile full) | return tree
    let some data ← attempt full.metadata | return tree
    let content := (String.fromUTF8? bytes).map String.toList
    return tree.add place (.file ⟨content, some data.modified.sec.toNat⟩)

/-- The files that a run with some arguments can see. -/
def take (args : List String) : IO FileTree := do
  let dir ← IO.currentDir
  let tree ← addPath (.empty (placeOf dir.components)) dir.toString
  args.foldlM (fun tree (arg : String) => do
    let some full ← attempt (IO.FS.realPath arg) | return tree
    if (tree.entry? (placeOf full.components)).isSome then return tree
    addPath tree (full.parent.getD full).toString) tree

end Snapshot

end Stylesheet

open Stylesheet in
/-- The program. -/
def main (args : List String) : IO UInt32 := do
  let tree ← Snapshot.take args
  let outcome := CommandLine.run tree (args.map String.toList)
  (← IO.getStderr).putStr (String.ofList outcome.stderr)
  (← IO.getStdout).putStr (String.ofList outcome.stdout)
  match outcome.written with
  | some (path, css) => IO.FS.writeFile path.toString (String.ofList css)
  | none => pure ()
  return UInt32.ofNat outcome.code
