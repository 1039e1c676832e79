import Scriptlet.Lexical.Token

/-!
# `Scriptlet.Tree.Basic`: programs as trees

Expressions and statements as the parser builds them and the machine runs them. A tree
keeps the tokens that errors at run time point to: operators, names, and the parenthesis
that closes a call. Parentheses around an expression are kept too (`Expr.group`), so that a
tree says everything about its source but the layout.
-/

set_option autoImplicit false

namespace Scriptlet

/-- Expressions. -/
inductive Expr where
  /-- A constant. -/
  | literal (value : Literal)
  /-- An expression in parentheses. -/
  | group (inner : Expr)
  /-- An operator in front of its operand. -/
  | unary (op : Token) (operand : Expr)
  /-- An operator between two operands that are both evaluated. -/
  | binary (left : Expr) (op : Token) (right : Expr)
  /-- `and` or `or`: the second operand is evaluated only if the first does not decide. -/
  | logical (left : Expr) (op : Token) (right : Expr)
  /-- The value of a variable. -/
  | get (name : Token)
  /-- A new value for a variable. -/
  | set (name : Token) (value : Expr)
  /-- A call: what is called, the parenthesis that closes the arguments, the arguments. -/
  | call (callee : Expr) (paren : Token) (args : List Expr)

/-- Statements. -/
inductive Stmt where
  /-- An expression evaluated for its effect. -/
  | expression (value : Expr)
  /-- A variable with its first value, which is nil if none is given. -/
  | declare (name : Token) (init : Option Expr)
  /-- Statements in a scope of their own. -/
  | block (body : List Stmt)
  /-- A condition, what to do if it holds, and what to do otherwise. -/
  | branch (condition : Expr) (yes : Stmt) (no : Option Stmt)
  /-- A condition, and what to do as long as it holds. -/
  | loop (condition : Expr) (body : Stmt)
  /-- A function: its name, its parameters, its body. -/
  | function (name : Token) (params : List Token) (body : List Stmt)
  /-- The end of a function: the word `return` and the result, nil if none is given. -/
  | giveBack (word : Token) (result : Option Expr)

/-- A program is a row of statements. -/
abbrev Program := List Stmt

/-! ### Equality

Trees are compared as they are built, down to the lines and the identities of their
tokens. Numbers are compared as numbers, so that a tree with a constant that is not a
number differs from itself. -/

mutual

/-- Equality of expressions. -/
protected def Expr.beq : Expr → Expr → Bool
  | .literal a, .literal b => a == b
  | .group a, .group b => a.beq b
  | .unary op a, .unary op' b => op == op' && a.beq b
  | .binary a op b, .binary a' op' b' => a.beq a' && op == op' && b.beq b'
  | .logical a op b, .logical a' op' b' => a.beq a' && op == op' && b.beq b'
  | .get name, .get name' => name == name'
  | .set name a, .set name' b => name == name' && a.beq b
  | .call a paren args, .call b paren' args' =>
    a.beq b && paren == paren' && Expr.beqList args args'
  | _, _ => false

/-- Equality of argument lists. -/
protected def Expr.beqList : List Expr → List Expr → Bool
  | [], [] => true
  | a :: as, b :: bs => a.beq b && Expr.beqList as bs
  | _, _ => false

end

instance : BEq Expr := ⟨Expr.beq⟩

mutual

/-- Equality of statements. -/
protected def Stmt.beq : Stmt → Stmt → Bool
  | .expression a, .expression b => a == b
  | .declare name init, .declare name' init' => name == name' && init == init'
  | .block body, .block body' => Stmt.beqList body body'
  | .branch c yes no, .branch c' yes' no' =>
    c == c' && yes.beq yes' && Stmt.beqOption no no'
  | .loop c body, .loop c' body' => c == c' && body.beq body'
  | .function name params body, .function name' params' body' =>
    name == name' && params == params' && Stmt.beqList body body'
  | .giveBack word result, .giveBack word' result' => word == word' && result == result'
  | _, _ => false

/-- Equality of statements that may be missing. -/
protected def Stmt.beqOption : Option Stmt → Option Stmt → Bool
  | none, none => true
  | some a, some b => a.beq b
  | _, _ => false

/-- Equality of statement lists. -/
protected def Stmt.beqList : List Stmt → List Stmt → Bool
  | [], [] => true
  | a :: as, b :: bs => a.beq b && Stmt.beqList as bs
  | _, _ => false

end

instance : BEq Stmt := ⟨Stmt.beq⟩

end Scriptlet
