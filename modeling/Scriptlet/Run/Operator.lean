import Scriptlet.Run.Fault
import Scriptlet.Run.Value

/-!
# `Scriptlet.Run.Operator`: what operators make of values

What operators make of the values of their operands. Faults do not know their token yet;
an operator's fault belongs to the operator.
-/

set_option autoImplicit false

namespace Scriptlet.Operator

/-- An operator in front of its operand: `!` turns any value into a truth value, and all
others change the sign of a number. -/
def unary (op : Kind) (v : Value) : Except Fault Value :=
  match op, v with
  | .mark .bang, v => .ok (.bool !v.isTruthy)
  | _, .number x => .ok (.number (-x))
  | _, _ => .error .operandMustBeNumber

/-- An operator between two numbers. What is none of the other operators compares by "at
most". -/
def arithmetic (op : Kind) (x y : Float) : Value :=
  match op with
  | .mark .minus => .number (x - y)
  | .mark .star => .number (x * y)
  | .mark .slash => .number (x / y)
  | .mark .greater => .bool (decide (y < x))
  | .mark .greaterEqual => .bool (decide (y ≤ x))
  | .mark .less => .bool (decide (x < y))
  | _ => .bool (decide (x ≤ y))

/-- The sum of two numbers, or two texts one behind the other. -/
def add : Value → Value → Except Fault Value
  | .number x, .number y => .ok (.number (x + y))
  | .string s, .string t => .ok (.string (s ++ t))
  | _, _ => .error .operandsMustBeNumbersOrStrings

/-- An operator between two operands. -/
def binary (op : Kind) (v w : Value) : Except Fault Value :=
  match op with
  | .mark .equalEqual => .ok (.bool (v == w))
  | .mark .bangEqual => .ok (.bool !(v == w))
  | .mark .plus => add v w
  | _ =>
    match v, w with
    | .number x, .number y => .ok (arithmetic op x y)
    | _, _ => .error .operandsMustBeNumbers

/-- Whether the first operand of `and` or `or` decides alone. -/
def decides (op : Kind) (v : Value) : Bool :=
  if op = .keyword .orWord then v.isTruthy else !v.isTruthy

end Scriptlet.Operator
