/-!
# Severities

Four levels of diagnostics, from fatal (level 0) to debug (level 3). A
threshold turns every diagnostic at or below its level into an abort;
fatal ones abort under any threshold.
-/

set_option autoImplicit false

namespace Stylesheet

/-- How bad a diagnostic is. -/
inductive Severity where
  | fatal
  | warning
  | info
  | debug
  deriving Repr, DecidableEq

namespace Severity

/-- The number of a severity, as thresholds count. -/
def level : Severity → Nat
  | fatal => 0
  | warning => 1
  | info => 2
  | debug => 3

/-- The severity with a given number. -/
def ofLevel? : Nat → Option Severity
  | 0 => some fatal
  | 1 => some warning
  | 2 => some info
  | 3 => some debug
  | _ => none

/-- What is said of a number that no severity has. -/
def invalidLevelMessage (n : Nat) : String :=
  "invalid severity level " ++ toString n
    ++ " (expected 0 = fatal, 1 = warning, 2 = info, 3 = debug)"

/-- The word at the head of a printed diagnostic. -/
def label : Severity → String
  | fatal => "Error"
  | warning => "Warning"
  | info => "Info"
  | debug => "Debug"

/-- The label in small letters. -/
def lowerLabel : Severity → String
  | fatal => "error"
  | warning => "warning"
  | info => "info"
  | debug => "debug"

/-- The name in data. -/
def name : Severity → String
  | fatal => "fatal"
  | warning => "warning"
  | info => "info"
  | debug => "debug"

/-- The severity with a given name. -/
def ofName? (s : String) : Option Severity := [fatal, warning, info, debug].find? (·.name == s)

/-- Whether a diagnostic of this severity aborts under a threshold. -/
def abortsAt (s : Severity) (threshold : Nat) : Bool := s == fatal || s.level ≤ threshold

/-- A severity is known by its level. -/
theorem ofLevel?_level (s : Severity) : ofLevel? s.level = some s := by
  cases s <;> rfl

end Severity

end Stylesheet
