import Scriptlet.Lexical.Token

/-!
# `Scriptlet.Run.Fault`: errors at run time

A `Fault` is the cause of an error, and a `RuntimeError` is a fault at the token nearest to
it. `Fault.message` and `RuntimeError.message` are where errors get their words.
-/

set_option autoImplicit false

namespace Scriptlet

/-- What can go wrong while a program runs. -/
inductive Fault where
  | operandMustBeNumber
  | operandsMustBeNumbers
  | operandsMustBeNumbersOrStrings
  | undefinedVariable (name : String)
  | notCallable
  | arityMismatch (expected got : Nat)
  /-- The value shown as `value` cannot become a `target`. -/
  | conversion (value target : String)
  /-- A native function refuses its arguments, in its own words. -/
  | invalidArgument (words : String)
  | io (words : String)
  | clock (words : String)
  deriving DecidableEq, Repr

/-- The words for a fault. -/
def Fault.message : Fault → String
  | operandMustBeNumber => "operand must be a number"
  | operandsMustBeNumbers => "operands must be numbers"
  | operandsMustBeNumbersOrStrings => "operands must be two numbers or two strings"
  | undefinedVariable name => "undefined variable '" ++ name ++ "'"
  | notCallable => "can only call functions"
  | arityMismatch expected got =>
    "expected " ++ toString expected ++ " arguments but got " ++ toString got
  | conversion value target => "cannot convert " ++ value ++ " to " ++ target
  | invalidArgument words => words
  | io words => "I/O error: " ++ words
  | clock words => "system clock error: " ++ words

/-- A fault and the token it is attributed to. -/
structure RuntimeError where
  token : Token
  fault : Fault

/-- The full message of an error. -/
def RuntimeError.message (e : RuntimeError) : String :=
  "line " ++ toString e.token.line ++ ", error at '" ++ e.token.name ++ "': " ++
    e.fault.message

end Scriptlet
