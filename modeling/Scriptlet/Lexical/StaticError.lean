import Scriptlet.Lexical.Token

/-!
# `Scriptlet.Lexical.StaticError`: errors in a source

Whatever is wrong with a source is found before anything runs: characters no token starts
with, strings without an end, and tokens in the wrong place. `StaticError.message` is the
one place where such an error gets its words.
-/

set_option autoImplicit false

namespace Scriptlet

/-- What is wrong with the source. -/
inductive Defect where
  | unexpectedChar (c : Char)
  | unterminatedString
  /-- A token of the kind `expected` is missing at the place `place` describes. -/
  | expectedToken (expected : Kind) (place : String)
  /-- The name of a `thing` is missing. -/
  | expectedName (thing : String)
  | expectedExpression
  | invalidAssignmentTarget
  | tooManyParameters
  | tooManyArguments
  deriving DecidableEq, Repr

/-- The number of parameters and of arguments that may not be exceeded. -/
def argumentLimit : Nat := 255

/-- The words for what is wrong. -/
def Defect.message : Defect → String
  | unexpectedChar c => "unexpected character '" ++ c.toString ++ "'"
  | unterminatedString => "unterminated string"
  | expectedToken expected place => "expect '" ++ expected.text ++ "' " ++ place
  | expectedName thing => "expect " ++ thing ++ " name"
  | expectedExpression => "expect expression"
  | invalidAssignmentTarget => "invalid assignment target"
  | tooManyParameters =>
    "can't have more than " ++ toString argumentLimit ++ " parameters"
  | tooManyArguments =>
    "can't have more than " ++ toString argumentLimit ++ " arguments"

/-- Where on its line an error was found. -/
inductive Location where
  /-- Only the line is known. -/
  | line
  /-- At the end of the source. -/
  | atEnd
  /-- At a token, by its spelling. -/
  | at (lexeme : String)
  deriving DecidableEq, Repr

/-- The words for a location. -/
def Location.message : Location → String
  | line => ""
  | atEnd => " at end"
  | .at lexeme => " at '" ++ lexeme ++ "'"

/-- An error in the source. -/
structure StaticError where
  line : Nat
  location : Location
  defect : Defect
  deriving DecidableEq, Repr

/-- An error of which only the line is known. -/
def StaticError.ofLine (line : Nat) (defect : Defect) : StaticError :=
  ⟨line, .line, defect⟩

/-- An error at a token. -/
def StaticError.ofToken (token : Token) (defect : Defect) : StaticError :=
  ⟨token.line, if token.is .eof then .atEnd else .at token.name, defect⟩

/-- The full message of an error. -/
def StaticError.message (e : StaticError) : String :=
  "line " ++ toString e.line ++ ", error" ++ e.location.message ++ ": " ++ e.defect.message

/-- The messages of several errors, one per line. -/
def StaticError.messages (errors : List StaticError) : String :=
  "\n".intercalate (errors.map StaticError.message)

end Scriptlet
