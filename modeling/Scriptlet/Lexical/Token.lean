import Scriptlet.Lexical.Symbol

/-!
# `Scriptlet.Lexical.Token`: lexical units

A token is a kind with its spelling, the constant it carries if it is a literal, and the
line on which it ends.
-/

set_option autoImplicit false

namespace Scriptlet

/-- A constant written in the source. -/
inductive Literal where
  | nil
  | bool (b : Bool)
  | number (x : Float)
  | string (s : String)
  deriving Inhabited

/-- Constants are equal when they have the same type and the same value; numbers are
compared as numbers, so the one that is not a number differs from itself. -/
protected def Literal.beq : Literal → Literal → Bool
  | nil, nil => true
  | bool a, bool b => a == b
  | number x, number y => x == y
  | string s, string t => s == t
  | _, _ => false

instance : BEq Literal := ⟨Literal.beq⟩

/-- A lexical unit. -/
structure Token where
  kind : Kind
  lexeme : Symbol
  literal : Option Literal
  /-- The line on which the token ends, counted from one. -/
  line : Nat

/-- Tokens are equal when all their parts are; spellings are compared as symbols. -/
protected def Token.beq (a b : Token) : Bool :=
  decide (a.kind = b.kind) && a.lexeme == b.lexeme && a.literal == b.literal &&
    a.line == b.line

instance : BEq Token := ⟨Token.beq⟩

/-- What a token spells. -/
def Token.name (t : Token) : String := t.lexeme.name

/-- Whether a token is of the given kind. -/
def Token.is (t : Token) (kind : Kind) : Bool := decide (t.kind = kind)

/-- A token in a message: its spelling, and a word for the end, which has none. -/
def Token.text (t : Token) : String :=
  match t.kind with
  | .eof => Kind.eof.text
  | _ => t.name

end Scriptlet
