import Stylesheet.Cut
import Stylesheet.Table

/-!
# Placeholders

A constant is referred to as `$name` or `{$name}`. `Placeholder.cut`
takes a template apart at its placeholders, and `interpolate` puts in the
values: all of them, or none and the first name without a value. Values
are not looked at again.
-/

set_option autoImplicit false

namespace Stylesheet

/-- A placeholder whose name has no value. -/
structure MissingConstant where
  name : Text
  deriving Repr, DecidableEq

/-- The wording of a missing constant. -/
def MissingConstant.message (m : MissingConstant) : String :=
  "constant `$" ++ String.ofList m.name ++ "` is referenced but has no value"

namespace Placeholder

/-- The name at the front of a text and the text behind it. -/
def takeName? (t : Text) : Option (Text × Text) :=
  if (t.takeWhile isNameChar).isEmpty then none
  else some (t.takeWhile isNameChar, t.dropWhile isNameChar)

/-- The placeholder at the front of a text: its name, and the text
behind it. The braces of the long form belong together. -/
def take? : Text → Option (Text × Text)
  | '{' :: '$' :: r =>
    match takeName? r with
    | some (name, '}' :: rest) => some (name, rest)
    | _ => none
  | '$' :: r => takeName? r
  | _ => none

/-- What stands behind a placeholder is shorter than the text. -/
theorem length_lt_of_take? {t rest name : Text} (h : take? t = some (name, rest)) :
    rest.length < t.length := by
  have hname : ∀ {r n s : Text}, takeName? r = some (n, s) → s.length ≤ r.length := by
    intro r n s hr
    unfold takeName? at hr
    split at hr
    · cases hr
    · simp only [Option.some.injEq, Prod.mk.injEq] at hr
      rw [← hr.2]
      exact (List.dropWhile_suffix isNameChar).length_le
  unfold take? at h
  split at h
  · split at h
    · rename_i hr
      simp only [Option.some.injEq, Prod.mk.injEq] at h
      have := hname hr
      rw [← h.2]
      simp only [List.length_cons] at this ⊢
      omega
    · cases h
  · have := hname h
    simp only [List.length_cons]
    omega
  · cases h

/-- Takes a template apart at its placeholders, each given by its
name. -/
def cut (t : Text) : Cut Text :=
  match t with
  | [] => .whole []
  | c :: r =>
    match _h : take? (c :: r) with
    | some (name, rest) => (cut rest).item name
    | none => (cut r).prepend [c]
termination_by t.length
decreasing_by
  · exact length_lt_of_take? _h
  · simp

/-- The names that a template refers to, each once, in order of first
use. -/
def references (t : Text) : List Text := (cut t).items.eraseDups

/-- The template with every placeholder replaced by its value. -/
def interpolate (table : Table Text) (t : Text) : Except MissingConstant Text :=
  match (references t).find? fun name => !table.contains name with
  | some name => .error ⟨name⟩
  | none => .ok ((cut t).fill fun name => (table.get? name).getD [])

end Placeholder

end Stylesheet
