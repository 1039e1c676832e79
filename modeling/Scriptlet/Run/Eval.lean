import Scriptlet.Run.Native
import Scriptlet.Run.Operator
import Scriptlet.Run.Outcome

/-!
# `Scriptlet.Run.Eval`: what programs do

What programs do to the machine. Operands, what is called, and arguments are evaluated
from left to right. A block runs in a new scope inside the current one; the body of a
function runs in a new scope inside the scope of its declaration, which also binds the
parameters. Whatever happens in such a scope, the scope before it is the current one again
afterwards.

All functions of the recursion count down a supply of steps, and a round of a loop takes
one too. A larger supply never changes an outcome that a smaller one reached.
-/

set_option autoImplicit false

namespace Scriptlet

mutual

/-- The value of an expression. -/
def eval : Nat → Expr → Machine → Outcome Value
  | 0, _, _ => .starved
  | n + 1, e, m =>
    match e with
    | .literal value => .done (.ofLiteral value) m
    | .group inner => eval n inner m
    | .unary op operand =>
      (eval n operand m).andThen fun v m => .ofExcept op (Operator.unary op.kind v) m
    | .binary left op right =>
      (eval n left m).andThen fun v m =>
        (eval n right m).andThen fun w m => .ofExcept op (Operator.binary op.kind v w) m
    | .logical left op right =>
      (eval n left m).andThen fun v m =>
        if Operator.decides op.kind v then .done v m else eval n right m
    | .get name =>
      match m.get? name.lexeme with
      | some v => .done v m
      | none => .failed ⟨name, .undefinedVariable name.name⟩ m
    | .set name value =>
      (eval n value m).andThen fun v m =>
        match m.owner? name.lexeme with
        | some owner => .done v (m.assignAt owner name.lexeme v)
        | none => .failed ⟨name, .undefinedVariable name.name⟩ m
    | .call callee paren args =>
      (eval n callee m).andThen fun v m =>
        (evalAll n args m).andThen fun vs m =>
          match v with
          | .callable f =>
            if vs.length = f.arity then
              invoke n f paren vs (m.note (.calling f.text vs.length))
            else .failed ⟨paren, .arityMismatch f.arity vs.length⟩ m
          | _ => .failed ⟨paren, .notCallable⟩ m

/-- The values of several expressions, from left to right. -/
def evalAll : Nat → List Expr → Machine → Outcome (List Value)
  | 0, _, _ => .starved
  | _ + 1, [], m => .done [] m
  | n + 1, e :: es, m =>
    (eval n e m).andThen fun v m =>
      (evalAll n es m).andThen fun vs m => .done (v :: vs) m

/-- Calls a function with as many arguments as it has parameters. The parenthesis that
closes the arguments answers for the faults of native functions. -/
def invoke : Nat → Callable → Token → List Value → Machine → Outcome Value
  | 0, _, _, _, _ => .starved
  | n + 1, f, paren, args, m =>
    match f.code with
    | .native _ _ op =>
      let (reply, m) := op.run args m
      .ofExcept paren reply m
    | .user decl closure =>
      let (scope, m) := m.openScope closure
      let m := { m with scopes := m.scopes.defineAll scope decl.params args }
      (execIn n scope decl.body m).andThen fun flow m => .done flow.result m

/-- Runs statements in another scope, and comes back whatever happens. -/
def execIn : Nat → ScopeId → List Stmt → Machine → Outcome Flow
  | 0, _, _, _ => .starved
  | n + 1, scope, body, m =>
    let before := m.current
    (execAll n body (m.enter scope)).mapMachine fun m => m.enter before

/-- Runs statements one after the other until one gives back a value. -/
def execAll : Nat → List Stmt → Machine → Outcome Flow
  | 0, _, _ => .starved
  | _ + 1, [], m => .done .normal m
  | n + 1, s :: rest, m =>
    (exec n s m).andThen fun flow m =>
      match flow with
      | .normal => execAll n rest m
      | .returned v => .done (.returned v) m

/-- Runs a statement. -/
def exec : Nat → Stmt → Machine → Outcome Flow
  | 0, _, _ => .starved
  | n + 1, s, m =>
    match s with
    | .expression value => (eval n value m).andThen fun _ m => .done .normal m
    | .declare name init =>
      (evalOptional n init m).andThen fun v m => .done .normal (m.define name.lexeme v)
    | .block body =>
      let (scope, m) := m.openScope m.current
      execIn n scope body m
    | .branch condition yes no =>
      (eval n condition m).andThen fun v m =>
        if v.isTruthy then exec n yes m
        else
          match no with
          | some s => exec n s m
          | none => .done .normal m
    | .loop condition body => repeatWhile n condition body m
    | .function name params body =>
      let m := m.note (.declaring name.name params.length)
      let (f, m) := m.makeCallable (.user ⟨name, params, body⟩ m.current)
      .done .normal (m.define name.lexeme f)
    | .giveBack _ result =>
      (evalOptional n result m).andThen fun v m => .done (.returned v) m

/-- The value of an expression, and nil if there is none. -/
def evalOptional : Nat → Option Expr → Machine → Outcome Value
  | 0, _, _ => .starved
  | _ + 1, none, m => .done .nil m
  | n + 1, some e, m => eval n e m

/-- Runs a statement again and again, as long as a condition holds before it. -/
def repeatWhile : Nat → Expr → Stmt → Machine → Outcome Flow
  | 0, _, _, _ => .starved
  | n + 1, condition, body, m =>
    (eval n condition m).andThen fun v m =>
      if v.isTruthy then
        (exec n body m).andThen fun flow m =>
          match flow with
          | .normal => repeatWhile n condition body m
          | .returned v => .done (.returned v) m
      else .done .normal m

end

/-- Runs a program in the current scope. A value given back ends the program and is
dropped. -/
def runProgram (n : Nat) (program : Program) (m : Machine) : Outcome Unit :=
  (execAll n program m).andThen fun flow m =>
    match flow with
    | .normal => .done () m
    | .returned v => .done () (m.note (.discarding v.text))

end Scriptlet
