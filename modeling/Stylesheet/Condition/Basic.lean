import Stylesheet.Decimal.Layout
import Stylesheet.Decimal.Reader
import Stylesheet.Literal

/-!
# Conditions

A condition compares two operands. An operand is a quoted text, a truth
value, a number with a unit, or any other text. `Condition.parse` cuts
an expression at its first operator outside quotes, the longest one at
that place. Places are counted in bytes on the way there, so a character
of several bytes outside quotes before the operator breaks the cut.
-/

set_option autoImplicit false

namespace Stylesheet

/-- A text was to be cut at a byte position inside a character. -/
structure BrokenCharacter where
  deriving Repr, DecidableEq

/-- The comparison operators. -/
inductive Operator where
  | equal
  | notEqual
  | strictEqual
  | strictNotEqual
  | greater
  | less
  | greaterEqual
  | lessEqual
  deriving Repr, DecidableEq

namespace Operator

/-- How an operator is written. -/
def symbol : Operator → Text
  | equal => ['=', '=']
  | notEqual => ['!', '=']
  | strictEqual => ['=', '=', '=']
  | strictNotEqual => ['!', '=', '=']
  | greater => ['>']
  | less => ['<']
  | greaterEqual => ['>', '=']
  | lessEqual => ['<', '=']

/-- All operators, longer ones before those they begin with. -/
def all : List Operator :=
  [strictEqual, strictNotEqual, equal, notEqual, greaterEqual, lessEqual, greater, less]

/-- The operator at the front of a text. -/
def take? (t : Text) : Option (Operator × Text) :=
  all.findSome? fun op => (Text.after? op.symbol t).map fun rest => (op, rest)

end Operator

/-- What a condition compares. -/
inductive Operand where
  | text (t : Text)
  | truth (b : Bool)
  | number (value : Float) (unit : Text)
  deriving Repr

namespace Operand

/-- A number with a unit of letters and percent signs. -/
def number? (t : Text) : Option Operand :=
  let (negative, unsigned) := Decimal.takeSign t
  match Decimal.takeDigits? isDigit unsigned with
  | none => none
  | some (whole, fraction, unit) =>
    if unit.all fun c => isLetter c || c == '%' then
      let x := Decimal.ofDigits whole fraction
      some (.number (if negative then -x else x) (Text.lower unit))
    else none

/-- The inside of a text between two equal quotes. -/
def quoted? (t : Text) : Option Text :=
  match t with
  | q :: c :: r =>
    if isQuote q ∧ (c :: r).getLast? = some q then some (c :: r).dropLast else none
  | _ => none

/-- Reads an operand. -/
def parse (raw : Text) : Operand :=
  let t := Text.trim raw
  match quoted? t with
  | some inside => .text inside
  | none =>
    if t = "true".toList then .truth true
    else if t = "false".toList then .truth false
    else (number? t).getD (.text t)

/-- Whether an operand counts as true beside a truth value. -/
def truthy : Operand → Bool
  | text t => !t.isEmpty && t != ['0']
  | truth b => b
  | number x _ => x != 0.0

/-- The text by which operands of different kinds are compared. -/
def toText : Operand → Text
  | text t => t
  | truth b => if b then "true".toList else "false".toList
  | number x unit => Decimal.plain x ++ unit

/-- Equality that lets a missing unit agree with any. -/
def looseEq : Operand → Operand → Bool
  | number x u, number y v => x == y && (u == v || u.isEmpty || v.isEmpty)
  | truth b, other => b == other.truthy
  | other, truth b => b == other.truthy
  | a, b => a.toText == b.toText

/-- Equality of kind, value and unit. -/
def strictEq : Operand → Operand → Bool
  | number x u, number y v => x == y && u == v
  | truth a, truth b => a == b
  | text a, text b => a == b
  | _, _ => false

/-- The order of two operands: numbers by value whatever their units,
all else by text. -/
def order : Operand → Operand → Ordering
  | number x _, number y _ => if x < y then .lt else if y < x then .gt else .eq
  | a, b => Text.order a.toText b.toText

end Operand

/-- A comparison of two operands. -/
structure Condition where
  left : Operand
  operator : Operator
  right : Operand
  deriving Repr

namespace Condition

/-- Cuts an expression at its first operator outside quotes. `quote` is
the quote that is open, and `seen` the text before, nearest character
first. -/
def parseFrom (quote : Option Char) (seen : Text) :
    Text → Except BrokenCharacter (Option Condition)
  | [] => .ok none
  | c :: r =>
    match quote with
    | some q => parseFrom (if c = q then none else some q) (c :: seen) r
    | none =>
      if isQuote c then parseFrom (some c) (c :: seen) r
      else match Operator.take? (c :: r) with
        | some (operator, rest) =>
          .ok (some ⟨Operand.parse seen.reverse, operator, Operand.parse rest⟩)
        | none => if 1 < c.utf8Size then .error {} else parseFrom none (c :: seen) r

/-- Reads a condition; there is none in a text without operator. -/
def parse (t : Text) : Except BrokenCharacter (Option Condition) := parseFrom none [] t

/-- Whether a condition holds. -/
def holds (c : Condition) : Bool :=
  match c.operator with
  | .equal => c.left.looseEq c.right
  | .notEqual => !c.left.looseEq c.right
  | .strictEqual => c.left.strictEq c.right
  | .strictNotEqual => !c.left.strictEq c.right
  | .greater => c.left.order c.right == .gt
  | .less => c.left.order c.right == .lt
  | .greaterEqual => c.left.order c.right != .lt
  | .lessEqual => c.left.order c.right != .gt

end Condition

end Stylesheet
