import Stylesheet.Condition.Basic
import Stylesheet.Delimiter

/-!
# Conditionals

`@if(condition) { … } @else { … }` stands for one of its branches,
trimmed. `resolve` goes through a text from left to right. Where a
conditional begins outside literals it is replaced by the branch that
its condition selects, and the scan goes on at the start of that branch,
so that conditionals inside it are resolved too; the other branch is
never looked at.

An `@if(…)` that no block follows is no conditional and stays.
-/

set_option autoImplicit false

namespace Stylesheet

/-- What can go wrong with a conditional. -/
inductive ConditionError where
  /-- The condition holds no operator. -/
  | noOperator (expression : Text)
  | scan (e : ScanError)
  | broken
  deriving Repr, DecidableEq

/-- The wording of the missing operator. -/
def noOperatorMessage (expression : Text) : String :=
  "`@if(" ++ String.ofList expression ++ ")` has no comparison operator"

/-- A conditional at the front of a text. -/
structure Conditional where
  expression : Text
  thenBranch : Text
  elseBranch : Option Text
  /-- The text behind it. -/
  rest : Text

namespace Conditional

/-- The keyword of a conditional and the blanks behind it, then the text
from its parenthesis on. -/
def header? (t : Text) : Option (Text × Text) :=
  match Text.after? "@if".toList t with
  | none => none
  | some r =>
    if (r.dropWhile isBlank).head? = some '(' then
      some ("@if".toList ++ r.takeWhile isBlank, r.dropWhile isBlank)
    else none

/-- The text from the brace of an `@else` on. -/
def fromElse? (t : Text) : Option Text :=
  match Text.after? "@else".toList (Text.trimStart t) with
  | none => none
  | some r => if (Text.trimStart r).head? = some '{' then some (Text.trimStart r) else none

/-- The error of a delimiter that is not closed, when the text from it
on is `t` and the whole text is `whole`. -/
def unclosed (d : Delimiter) (whole t : Text) : ScanError :=
  let offset := Text.size whole - Text.size t
  .unclosed d.opening offset (Text.lineOf whole offset)

/-- Reads a conditional from its parenthesis on. There is none if no
block follows the condition. `whole` is the text of which this is a
part; it only serves to blame a delimiter. -/
def take? (whole t : Text) : Except ScanError (Option Conditional) :=
  match Delimiter.paren.close? t with
  | none => .error (unclosed .paren whole t)
  | some (condition, afterCondition) =>
    let block := Text.trimStart afterCondition
    if block.head? = some '{' then
      match Delimiter.brace.close? block with
      | none => .error (unclosed .brace whole block)
      | some (body, rest) =>
        match fromElse? rest with
        | none => .ok (some ⟨condition.drop 1, body.drop 1, none, rest⟩)
        | some block =>
          match Delimiter.brace.close? block with
          | none => .error (unclosed .brace whole block)
          | some (other, rest) =>
            .ok (some ⟨condition.drop 1, body.drop 1, some (other.drop 1), rest⟩)
    else .ok none

/-- The branch that a condition selects, trimmed. -/
def branch (c : Conditional) (holds : Bool) : Text :=
  if holds then Text.trim c.thenBranch else Text.trim (c.elseBranch.getD [])

/-- A header takes three characters at least. -/
theorem length_header? {t header r : Text} (h : header? t = some (header, r)) :
    r.length + 3 ≤ t.length := by
  unfold header? at h
  split at h
  · cases h
  · rename_i s hs
    split at h
    · simp only [Option.some.injEq, Prod.mk.injEq] at h
      have h1 := (List.dropWhile_suffix (l := s) isBlank).length_le
      rw [← h.2, Text.eq_append_of_after? hs]
      simp
      omega
    · cases h

/-- What is searched for an alternative gets no longer. -/
theorem length_fromElse? {t r : Text} (h : fromElse? t = some r) : r.length ≤ t.length := by
  unfold fromElse? at h
  split at h
  · cases h
  · rename_i s hs
    split at h
    · simp only [Option.some.injEq] at h
      have h1 := Text.length_trimStart_le s
      have h2 := Text.length_trimStart_le t
      have h3 := congrArg List.length (Text.eq_append_of_after? hs)
      simp only [List.length_append] at h3
      rw [← h]
      omega
    · cases h

/-- The branches of a conditional are shorter than its text. -/
theorem length_of_take? {whole t : Text} {c : Conditional}
    (h : take? whole t = .ok (some c)) (holds : Bool) :
    (c.branch holds).length + c.rest.length < t.length := by
  unfold take? at h
  split at h
  · cases h
  · rename_i condition afterCondition hcond
    -- Each search for a closing delimiter leaves less text than it was given.
    have h1 := Delimiter.length_lt_of_close? hcond
    have h2 := Text.length_trimStart_le afterCondition
    simp only at h
    split at h
    · split at h
      · cases h
      · rename_i body rest hbody
        have h3 := Delimiter.length_lt_of_close? hbody
        have h4 := Text.length_trim_le (body.drop 1)
        split at h
        · simp only [Except.ok.injEq, Option.some.injEq] at h
          subst h
          cases holds <;> simp [branch, Text.trim, Text.trimEnd, Text.trimStart] at h4 ⊢ <;> omega
        · -- With an alternative there are two bodies, and the rest is what follows the second.
          rename_i block hblock
          have h5 := length_fromElse? hblock
          split at h
          · cases h
          · rename_i other rest' hother
            have h6 := Delimiter.length_lt_of_close? hother
            have h7 := Text.length_trim_le (other.drop 1)
            simp only [Except.ok.injEq, Option.some.injEq] at h
            subst h
            simp only [List.length_drop] at h4 h7
            cases holds <;> simp only [branch, Option.getD_some, if_true, Bool.false_eq_true,
              if_false] <;> omega
    · simp at h

/-- The conditional at a place whose parenthesis comes next, unless the
place is inside a literal. -/
def at? (behind ahead fromParen : Text) : Except ScanError (Option Conditional) :=
  let whole := behind.reverse ++ ahead
  if insideAny (literalSpans whole) (Text.size behind) then .ok none else take? whole fromParen

/-- Whichever branch is chosen, it is shorter than the conditional, together
with what follows. -/
theorem length_of_at? {behind ahead t : Text} {c : Conditional}
    (h : at? behind ahead t = .ok (some c)) (holds : Bool) :
    (c.branch holds).length + c.rest.length < t.length := by
  unfold at? at h
  simp only at h
  split at h
  · simp at h
  · exact length_of_take? h holds

/-- Resolves the text ahead of a place. `behind` is the text before it,
nearest character first. -/
def resolveFrom (behind ahead : Text) : Except ConditionError Text :=
  match _hh : header? ahead with
  | none =>
    match ahead with
    | [] => .ok []
    | c :: r =>
      match resolveFrom (c :: behind) r with
      | .error e => .error e
      | .ok t => .ok (c :: t)
  | some (header, fromParen) =>
    match _ha : at? behind ahead fromParen with
    | .error e => .error (.scan e)
    | .ok none =>
      match resolveFrom ('(' :: (header.reverse ++ behind)) (fromParen.drop 1) with
      | .error e => .error e
      | .ok t => .ok (header ++ '(' :: t)
    | .ok (some c) =>
      match Condition.parse c.expression with
      | .error _ => .error .broken
      | .ok none => .error (.noOperator (Text.trim c.expression))
      | .ok (some condition) => resolveFrom behind (c.branch condition.holds ++ c.rest)
termination_by ahead.length
decreasing_by
  · simp
  · have := length_header? _hh
    simp only [List.length_drop]
    omega
  · have h1 := length_header? _hh
    have h2 := length_of_at? _ha condition.holds
    simp only [List.length_append]
    omega

/-- The text with every conditional replaced by the branch that it
stands for. -/
def resolve (t : Text) : Except ConditionError Text := resolveFrom [] t

end Conditional

end Stylesheet
