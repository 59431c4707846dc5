import Stylesheet.Compilation

/-!
# URLs

With a document root, relative URLs are made absolute: as seen from the
directory of the document, and written from the root on. This holds for
the targets of `@import` and of `url(…)`. Images that are not below the
root are reported.
-/

set_option autoImplicit false

namespace Stylesheet

namespace Url

/-- Whether a URL is left as it is. -/
def isAbsolute (url : Text) : Bool :=
  (match url with
    | c :: _ => c == '/' || c == '\\' || c == '#'
    | [] => false)
  || ["http://", "https://", "data:"].any fun scheme =>
    (Text.afterLetters? scheme.toList url).isSome

/-- The URL of a directory, seen from the root; outside the root it has
none. -/
def ofDirectory? (tree : FileTree) (dir root : Path) : Option Text :=
  ((tree.fileKey dir).below? (tree.fileKey root)).map fun components =>
    '/' :: components.flatMap fun
      | .name n => n ++ ['/']
      | _ => []

/-- Follows the `./` and `../` at the front of a URL from a directory,
which is given by its names, innermost first. -/
def climb : List Text → Text → List Text × Text
  | names, '.' :: '.' :: '/' :: rest => climb names.tail rest
  | names, '.' :: '/' :: rest => climb names rest
  | names, rest => (names, rest)

/-- The absolute form of a URL that is relative to a directory. -/
def absolutize (dir url : Text) : Text :=
  let names := (Text.splitWhere (· == '/') dir).filter (!·.isEmpty)
  let (above, rest) := climb names.reverse url
  '/' :: (above.reverse.flatMap (· ++ ['/']) ++ rest)

/-! ### Imports -/

/-- Whether a character can stand in the target of an import. -/
def isTargetChar (c : Char) : Bool := !(isQuote c || isBlank c || c == ';' || c == ')')

/-- The text without a quote in front. -/
def pastQuote : Text → Text
  | [] => []
  | c :: r => if isQuote c then r else c :: r

/-- Reads a target and all up to the semicolon behind it: the target, the
media, and the text behind. -/
def target? (t : Text) : Option (Text × Text × Text) :=
  let start := pastQuote t
  let target := start.takeWhile isTargetChar
  let afterTarget := pastQuote (start.dropWhile isTargetChar)
  let media := match afterTarget.dropWhile isBlank with
    | ')' :: r => r
    | _ => afterTarget
  match media.dropWhile fun c => c != ';' && c != '{' && c != '}' with
  | ';' :: rest =>
    if target.isEmpty then none
    else some (target, media.takeWhile fun c => c != ';' && c != '{' && c != '}', rest)
  | _ => none

/-- Reads an import: its target, its media, and the text behind. -/
def import? (t : Text) : Option (Text × Text × Text) :=
  match Text.after? "@import".toList t with
  | none => none
  | some r =>
    let start := r.dropWhile isBlank
    if !(r.head?.any isBlank) then none
    else
      let wrapped := (Text.after? "url(".toList start).bind fun s => target? (s.dropWhile isBlank)
      wrapped.or (target? start)

/-- What the import at a place becomes. -/
def importAt? (dir : Text) (_ ahead : Text) : Option (Text × Nat) :=
  match import? ahead with
  | none => none
  | some (target, media, rest) =>
    let n := ahead.length - rest.length
    if isAbsolute target then some (ahead.take n, n)
    else
      let media := Text.trim media
      some ("@import '".toList ++ absolutize dir target
        ++ (if media.isEmpty then "';".toList else "' ".toList ++ media ++ [';']), n)

/-! ### Images -/

/-- The text behind the end of a `url(…)`: a quote that may be absent,
blanks and the parenthesis. -/
def pastClose? (t : Text) : Option Text :=
  match (pastQuote t).dropWhile isBlank with
  | ')' :: rest => some rest
  | _ => none

/-- Reads the shortest target that an end follows, and the text behind
that. -/
def shortest? : Text → Option (Text × Text)
  | [] => none
  | c :: r =>
    if isQuote c || c == ')' then none
    else match pastClose? r with
      | some rest => some ([c], rest)
      | none =>
        match shortest? r with
        | some (target, rest) => some (c :: target, rest)
        | none => none

/-- Reads a `url(…)`: its target and the text behind. -/
def image? (t : Text) : Option (Text × Text) :=
  match Text.after? "url(".toList t with
  | none => none
  | some r => Text.pastBlanks? 0 (fun s => shortest? (pastQuote s)) r

/-- What the `url(…)` at a place becomes: the text as it is, or an
absolute URL. -/
inductive Image where
  | kept (t : Text)
  | rewritten (url : Text)
  deriving Repr, DecidableEq

/-- The text of an image. -/
def Image.text : Image → Text
  | kept t => t
  | rewritten url => "url(".toList ++ url ++ [')']

/-- The image at a place. -/
def imageAt? (dir : Text) (_ ahead : Text) : Option (Image × Nat) :=
  match image? ahead with
  | none => none
  | some (target, rest) =>
    let target := Text.trim target
    let n := ahead.length - rest.length
    if isAbsolute target then some (.kept (ahead.take n), n)
    else some (.rewritten (absolutize dir target), n)

/-- The file that an absolute URL is about. -/
def file (root : Path) (url : Text) : Path :=
  root.join ⟨(url.takeWhile fun c => c != '?' && c != '#').dropWhile (· == '/')⟩

/-- The URLs among images that lead to no file. -/
def missing (tree : FileTree) (root : Path) (images : List Image) : List Text :=
  images.filterMap fun
    | .kept _ => none
    | .rewritten url => if tree.pathExists (file root url) then none else some url

/-- The diagnostic of an image that is not there. -/
def missingDiagnostic (url : Text) : Diagnostic :=
  { severity := .warning, title := "Missing image", code := some "S-9-1",
    problem := some ("`" ++ String.ofList url ++ "` does not exist under the document root") }

end Url

/-- Makes the URLs of a text absolute. `dir` is the URL of the directory
that they are relative to. -/
def rewriteUrls (dir : Text) (root : Path) (t : Text) : Compile Text := do
  let imported := (Cut.scan (Url.importAt? dir) t).fill id
  let images := Cut.scan (Url.imageAt? dir) imported
  (Url.missing (← read).tree root images.items).forM fun url =>
    Compile.report (Url.missingDiagnostic url)
  return images.fill Url.Image.text

end Stylesheet
