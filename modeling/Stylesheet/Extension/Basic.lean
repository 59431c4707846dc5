import Stylesheet.Compilation

/-!
# Extensions

Extensions are functions and properties that plain stylesheets do not
have. A registry lists them. `Registry.apply` replaces the declarations
of each property and then the calls of each function, one extension
after the other, each over the text that the ones before it left.

Names count as such only where they are not part of a longer name.
Capitals and small letters are not told apart.
-/

set_option autoImplicit false

namespace Stylesheet

namespace Extension

/-- A function: the text for some arguments, or none if it rejects
them. -/
structure Function where
  name : Text
  call : State → List Text → Option Text

/-- A property: the text for a value, or none if it rejects it. -/
structure Property where
  name : Text
  expand : State → Text → Option Text

/-- Some extensions. -/
structure Registry where
  functions : List Function := []
  properties : List Property := []

/-- A call or a declaration found in a text. -/
structure Occurrence where
  /-- What stands between the parentheses or behind the colon. -/
  argument : Text
  /-- The whole text of it. -/
  source : Text
  deriving Repr, DecidableEq

/-- The text behind a name, if that name stands at a place and ends
there. -/
def afterName? (name behind ahead : Text) : Option Text :=
  match Text.afterLetters? (Text.lower name) ahead with
  | none => none
  | some r => if behind.head?.any isNameChar || r.head?.any isNameChar then none else some r

/-! ### Calls -/

/-- The call of a function at a place, and its length. -/
def callAt? (name : Text) (spans : List Span) (behind ahead : Text) :
    Except ScanError (Option (Occurrence × Nat)) :=
  match afterName? name behind ahead with
  | none => .ok none
  | some r =>
    let opening := r.dropWhile isAsciiBlank
    if opening.head? ≠ some '(' ∨ insideAny spans (Text.size behind) then .ok none
    else match Delimiter.paren.close? opening with
      | none =>
        let front := ahead.take (ahead.length - opening.length)
        .error (.unclosed '(' (Text.size behind + Text.size front)
          (Text.newlines behind + Text.newlines front + 1))
      | some (inside, rest) =>
        let n := ahead.length - rest.length
        .ok (some (⟨inside.drop 1, ahead.take n⟩, n))

/-- Takes a text apart at the calls of a function. -/
def cutCalls (name t : Text) : Except ScanError (Cut Occurrence) :=
  Cut.tryScan (callAt? name (literalSpans t)) t

/-- The arguments of a call: trimmed, and empty ones left out. -/
def arguments (inside : Text) : List Text :=
  ((splitTop ',' inside).map Text.trim).filter (!·.isEmpty)

/-! ### Declarations -/

/-- Whether a declaration may start behind a text, which is given nearest
character first. -/
def startsDeclaration (behind : Text) : Bool :=
  match behind.dropWhile isBlank with
  | [] => true
  | c :: _ => c == '{' || c == ';' || c == '}'

/-- The value at the front of some pieces, up to a semicolon or a closing
brace outside parentheses, and the text from there on. -/
def takeValue : Nat → List Piece → Text × Text
  | _, [] => ([], [])
  | depth, .plain c :: ps =>
    if (c = ';' ∨ c = '}') ∧ depth = 0 then ([], c :: textOf ps)
    else
      let depth' := if c = '(' then depth + 1 else if c = ')' then depth - 1 else depth
      let (value, rest) := takeValue depth' ps
      (c :: value, rest)
  | depth, p :: ps =>
    let (value, rest) := takeValue depth ps
    (p.text ++ value, rest)

/-- The declaration of a property at a place, and its length. -/
def declarationAt? (name : Text) (spans : List Span) (behind ahead : Text) :
    Option (Occurrence × Nat) :=
  match afterName? name behind ahead with
  | none => none
  | some r =>
    match r.dropWhile isAsciiBlank with
    | ':' :: s =>
      if !startsDeclaration behind || insideAny spans (Text.size behind) then none
      else
        let (value, rest) := takeValue 0 (pieces s)
        let behindMark := match rest with
          | ';' :: rest => rest
          | rest => rest
        let n := ahead.length - behindMark.length
        some (⟨Text.trim value, ahead.take n⟩, n)
    | _ => none

/-- Takes a text apart at the declarations of a property. -/
def cutDeclarations (name t : Text) : Cut Occurrence :=
  Cut.scan (declarationAt? name (literalSpans t)) t

/-- A declaration as it is put into a text: trimmed, and ended unless
there is nothing. -/
def ended (t : Text) : Text :=
  let t := Text.trim t
  if t.isEmpty || t.getLast? == some ';' then t else t ++ [';']

/-! ### Application -/

/-- The diagnostic of a call or a declaration that was rejected. -/
def rejectedDiagnostic (name source : Text) : Diagnostic :=
  { severity := .fatal, title := "Invalid extension syntax", code := some "S-8-1",
    problem := some ("`" ++ String.ofList name ++ "` rejected `" ++ String.ofList source ++ "`") }

/-- Goes on with a text, or ends because an occurrence was rejected. -/
def orReject (name : Text) (o : Occurrence) : Option Text → Compile Text
  | some t => return t
  | none => Compile.abort (rejectedDiagnostic name o.source)

/-- Replaces the declarations of a property. -/
def Property.apply (p : Property) (t : Text) : Compile Text := do
  let state ← get
  (cutDeclarations p.name t).fillM fun o =>
    orReject p.name o ((p.expand state o.argument).map ended)

/-- Replaces the calls of a function. -/
def Function.apply (f : Function) (t : Text) : Compile Text := do
  let state ← get
  let cut ← Compile.ofScan (cutCalls f.name t)
  cut.fillM fun o => orReject f.name o (f.call state (arguments o.argument))

/-- Replaces all that the extensions of a registry are about. -/
def Registry.apply (registry : Registry) (t : Text) : Compile Text := do
  let t ← registry.properties.foldlM (fun t p => p.apply t) t
  registry.functions.foldlM (fun t f => f.apply t) t

end Extension

end Stylesheet
