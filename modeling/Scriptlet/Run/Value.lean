import Scriptlet.Number.Text
import Scriptlet.Run.Fault
import Scriptlet.Tree.Basic

/-!
# `Scriptlet.Run.Value`: the values of the language

The values that scripts compute with. Values never contain one another: a function value
holds the number of the scope it was made in, not the scope itself, so that changes made
through one closure are seen by every other.

Function values have an identity. It is given out once, when the function is declared, and
it alone decides whether two function values are equal.
-/

set_option autoImplicit false

namespace Scriptlet

/-- The number of a scope in the store of scopes. -/
abbrev ScopeId := Nat

/-- What a function declaration says. -/
structure FunctionDef where
  name : Token
  params : List Token
  body : List Stmt

/-- What is seen of a value without calling it. Of a function this is its identity, its name,
the number of its parameters, and whether it is native, but not the trees of its body and not
the scope that it remembers. -/
inductive Look where
  | nil
  | bool (b : Bool)
  | number (x : Float)
  | string (s : String)
  | callable (identity : Nat) (name : String) (arity : Nat) (isNative : Bool)

/-- What a host function gives back: a constant, or the argument at a place, nil if there is
none. -/
inductive HostReply where
  | constant (value : Literal)
  | argument (place : Nat)

/-- A function of the host. The host may decide in any way by what it sees of the arguments, and
it may fail with any fault. It does nothing else: it calls no function and makes none, and it
remembers nothing. -/
abbrev HostFunction := List Look → Except Fault HostReply

/-- The operations that are not written in the language itself. -/
inductive Native where
  /-- The time in seconds. -/
  | clock
  /-- The next line of the input. -/
  | readLine
  /-- A random whole number from a range. -/
  | randomRangeRounded
  /-- A value as a number. -/
  | toDouble
  /-- A value as a text. -/
  | toText
  /-- Writes a value. -/
  | print
  /-- Writes a value and ends the line. -/
  | printLine
  /-- An operation that a host adds. -/
  | host (function : HostFunction)

/-- What a function value does when it is called. -/
inductive Code where
  | native (name : String) (arity : Nat) (op : Native)
  /-- A declared function and the scope of its declaration. -/
  | user (decl : FunctionDef) (closure : ScopeId)

/-- A function value. -/
structure Callable where
  identity : Nat
  code : Code

namespace Callable

/-- The name by which a function value is printed. -/
def name (f : Callable) : String :=
  match f.code with
  | .native name _ _ => name
  | .user decl _ => decl.name.name

/-- The number of arguments that a call must have. -/
def arity (f : Callable) : Nat :=
  match f.code with
  | .native _ arity _ => arity
  | .user decl _ => decl.params.length

/-- Whether the function is the host's, and not a declared one. -/
def isNative (f : Callable) : Bool :=
  match f.code with
  | .native _ _ _ => true
  | .user _ _ => false

/-- A function value as scripts print it. -/
def text (f : Callable) : String :=
  (if f.isNative then "<native fn " else "<fn ") ++ f.name ++ ">"

/-- All that is known of a function value without calling it. -/
def description (f : Callable) : String :=
  "Callable \x7b name: \"" ++ f.name ++ "\", arity: " ++ toString f.arity ++ ", native: " ++
    (if f.isNative then "true" else "false") ++ " \x7d"

end Callable

/-- The values of the language. -/
inductive Value where
  | nil
  | bool (b : Bool)
  | number (x : Float)
  | string (s : String)
  | callable (f : Callable)

namespace Value

/-- The value of a constant. -/
def ofLiteral : Literal → Value
  | .nil => nil
  | .bool b => bool b
  | .number x => number x
  | .string s => string s

/-- Whether a value counts as true: all do but nil and false. -/
def isTruthy : Value → Bool
  | nil => false
  | bool b => b
  | _ => true

/-- The name of a value's type. -/
def typeName : Value → String
  | nil => "nil"
  | bool _ => "boolean"
  | number _ => "number"
  | string _ => "string"
  | callable _ => "function"

/-- Equality never mixes types. Numbers are compared as numbers and functions by
identity. -/
protected def beq : Value → Value → Bool
  | nil, nil => true
  | bool a, bool b => a == b
  | number x, number y => x == y
  | string s, string t => s == t
  | callable f, callable g => f.identity == g.identity
  | _, _ => false

instance : BEq Value := ⟨Value.beq⟩

/-- What is seen of a value without calling it. -/
def look : Value → Look
  | nil => .nil
  | bool b => .bool b
  | number x => .number x
  | string s => .string s
  | callable f => .callable f.identity f.name f.arity f.isNative

/-- A value as scripts print it. -/
def text : Value → String
  | nil => "nil"
  | bool b => if b then "true" else "false"
  | number x => Number.text x
  | string s => s
  | callable f => f.text

end Value

end Scriptlet
