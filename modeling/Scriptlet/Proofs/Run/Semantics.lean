import Scriptlet.Proofs.Run.Scopes
import Scriptlet.Run.Machine
import Scriptlet.Run.Native
import Scriptlet.Run.Outcome

/-!
# `Scriptlet.Proofs.Run.Semantics`: what programs mean

The meaning of programs as rules, without any evaluator. A `World` is what programs act on:
the store of scopes, the input that is left, the output, the generator and the clock. The
current scope is no part of it: each judgement names the scope it is made in.

* `Evaluates e scope σ ending σ'`: in `scope` and from the world `σ`, the expression `e` comes
  to the ending, a value or an error, and leaves the world `σ'`. `EvaluatesAll` is the same for
  a row of arguments.
* `Calls f paren args σ ending σ'`: calling a function comes to the ending. It does not depend
  on the scope of the call.
* `Executes s scope σ ending σ'` and `ExecutesAll`: the same for statements, which end normally,
  by giving back a value, or with an error.
* `Interprets`: the same for whole programs, which drop what they give back.

Names are looked up by `Scopes.Nearest`. What operators make of values and what native
functions do is said by rules of their own (`UnaryRule`, `BinaryRule`, `Performs`).
-/

set_option autoImplicit false

namespace Scriptlet.Semantics

/-- What programs act on. -/
structure World where
  scopes : Scopes
  /-- How many functions were declared. -/
  identities : Nat
  input : Reader
  output : Sink
  generator : Generator
  clock : Clock

namespace World

/-- Binds a name in a scope. -/
def bind (σ : World) (scope : ScopeId) (name : Symbol) (v : Value) : World :=
  { σ with scopes := σ.scopes.define scope name v }

/-- Gives a name of a scope a new value. -/
def update (σ : World) (owner : ScopeId) (name : Symbol) (v : Value) : World :=
  { σ with scopes := σ.scopes.assignAt owner name v }

/-- The number of the next scope. -/
def fresh (σ : World) : ScopeId := σ.scopes.count

/-- Opens the next scope, inside another one, with parameters bound to arguments. -/
def nest (σ : World) (parent : ScopeId) (params : List Token) (args : List Value) : World :=
  { σ with
    scopes := (σ.scopes.openScope (some parent)).2.defineAll σ.fresh params args }

/-- No scope from this one outwards binds the name. -/
def Unbound (σ : World) (scope : ScopeId) (name : Symbol) : Prop :=
  ∀ owner, ¬ σ.scopes.Nearest name scope owner

end World

/-- How something ends: with a result, or with an error. -/
inductive Ending (α : Type) where
  | value (v : α)
  | error (e : RuntimeError)

/-- A result, or a fault that a token answers for. -/
def Ending.ofReply {α : Type} (token : Token) : Except Fault α → Ending α
  | .ok v => .value v
  | .error fault => .error ⟨token, fault⟩

/-! ### Operators -/

/-- What counts as false: nil and false, and nothing else. -/
inductive Falsy : Value → Prop where
  | nil : Falsy .nil
  | false : Falsy (.bool false)

/-- What an operator makes of the value behind it. -/
inductive UnaryRule : Kind → Value → Except Fault Value → Prop where
  | notFalsy {v : Value} : Falsy v → UnaryRule (.mark .bang) v (.ok (.bool true))
  | notTruthy {v : Value} : ¬ Falsy v → UnaryRule (.mark .bang) v (.ok (.bool false))
  | negate {op : Kind} {x : Float} :
      op ≠ .mark .bang → UnaryRule op (.number x) (.ok (.number (-x)))
  | fault {op : Kind} {v : Value} :
      op ≠ .mark .bang → (∀ x, v ≠ .number x) → UnaryRule op v (.error .operandMustBeNumber)

/-- The operators that are defined for all values, or for texts. -/
def mixedOperators : List Kind := [.mark .equalEqual, .mark .bangEqual, .mark .plus]

/-- The operators between numbers other than the comparison "at most". -/
def numberOperators : List Kind :=
  [.mark .minus, .mark .star, .mark .slash, .mark .greater, .mark .greaterEqual, .mark .less]

/-- What an operator makes of the values around it. -/
inductive BinaryRule : Kind → Value → Value → Except Fault Value → Prop where
  | equal {v w : Value} : BinaryRule (.mark .equalEqual) v w (.ok (.bool (v == w)))
  | unequal {v w : Value} : BinaryRule (.mark .bangEqual) v w (.ok (.bool !(v == w)))
  | addNumbers {x y : Float} :
      BinaryRule (.mark .plus) (.number x) (.number y) (.ok (.number (x + y)))
  | joinTexts {s t : String} :
      BinaryRule (.mark .plus) (.string s) (.string t) (.ok (.string (s ++ t)))
  | addFault {v w : Value} : (∀ x y, ¬ (v = .number x ∧ w = .number y)) →
      (∀ s t, ¬ (v = .string s ∧ w = .string t)) →
      BinaryRule (.mark .plus) v w (.error .operandsMustBeNumbersOrStrings)
  | subtract {x y : Float} :
      BinaryRule (.mark .minus) (.number x) (.number y) (.ok (.number (x - y)))
  | multiply {x y : Float} :
      BinaryRule (.mark .star) (.number x) (.number y) (.ok (.number (x * y)))
  | divide {x y : Float} :
      BinaryRule (.mark .slash) (.number x) (.number y) (.ok (.number (x / y)))
  | greater {x y : Float} :
      BinaryRule (.mark .greater) (.number x) (.number y) (.ok (.bool (decide (y < x))))
  | atLeast {x y : Float} :
      BinaryRule (.mark .greaterEqual) (.number x) (.number y) (.ok (.bool (decide (y ≤ x))))
  | less {x y : Float} :
      BinaryRule (.mark .less) (.number x) (.number y) (.ok (.bool (decide (x < y))))
  /-- This is `<=`, the only operator left. -/
  | atMost {op : Kind} {x y : Float} : op ∉ mixedOperators → op ∉ numberOperators →
      BinaryRule op (.number x) (.number y) (.ok (.bool (decide (x ≤ y))))
  | fault {op : Kind} {v w : Value} : op ∉ mixedOperators →
      (∀ x y, ¬ (v = .number x ∧ w = .number y)) →
      BinaryRule op v w (.error .operandsMustBeNumbers)

/-- The first operand of `or`, and of `and` otherwise, decides alone. -/
inductive Decides : Kind → Value → Prop where
  | or {v : Value} : ¬ Falsy v → Decides (.keyword .orWord) v
  | and {op : Kind} {v : Value} : op ≠ .keyword .orWord → Falsy v → Decides op v

/-! ### Native functions -/

/-- The argument at a place, nil if there is none. -/
def argument (args : List Value) (i : Nat) : Value := args[i]?.getD .nil

/-- The numbers that bound a range to draw from. -/
def ValidRange (low high : Float) : Prop :=
  low.isFinite = true ∧ high.isFinite = true ∧ ¬ high < low

/-- What native functions do to the world, and what they give. -/
inductive Performs : Native → List Value → World → Except Fault Value → World → Prop where
  | clock {args : List Value} {σ : World} {seconds : Float} {later : Clock} :
      σ.clock.read = (.ok seconds, later) →
      Performs .clock args σ (.ok (.number seconds)) { σ with clock := later }
  | clockFault {args : List Value} {σ : World} {words : String} {later : Clock} :
      σ.clock.read = (.error words, later) →
      Performs .clock args σ (.error (.clock words)) { σ with clock := later }
  | line {args : List Value} {σ : World} {line : String} {rest : Reader} :
      σ.input.readLine = (.ok (some line), rest) →
      Performs .readLine args σ (.ok (.string (Native.chompLine line))) { σ with input := rest }
  | noLine {args : List Value} {σ : World} {rest : Reader} :
      σ.input.readLine = (.ok none, rest) →
      Performs .readLine args σ (.ok .nil) { σ with input := rest }
  | lineFault {args : List Value} {σ : World} {words : String} {rest : Reader} :
      σ.input.readLine = (.error words, rest) →
      Performs .readLine args σ (.error (.io words)) { σ with input := rest }
  | random {args : List Value} {σ : World} {low high x : Float} {rest : Generator} :
      argument args 0 = .number low → argument args 1 = .number high → ValidRange low high →
      (high - low).isFinite = true → σ.generator.between low high = (x, rest) →
      Performs .randomRangeRounded args σ (.ok (.number (Binary64.roundHalfAway x)))
        { σ with generator := rest }
  | rangeFault {args : List Value} {σ : World} {low high : Float} :
      argument args 0 = .number low → argument args 1 = .number high →
      ¬ ValidRange low high → Performs .randomRangeRounded args σ
        (.error (.invalidArgument ("invalid random range " ++ Native.rangeText low high))) σ
  | widthFault {args : List Value} {σ : World} {low high : Float} :
      argument args 0 = .number low → argument args 1 = .number high → ValidRange low high →
      (high - low).isFinite = false → Performs .randomRangeRounded args σ
        (.error (.invalidArgument
          ("random range " ++ Native.rangeText low high ++ " is too wide"))) σ
  | boundsFault {args : List Value} {σ : World} :
      (∀ x y, ¬ (argument args 0 = .number x ∧ argument args 1 = .number y)) →
      Performs .randomRangeRounded args σ
        (.error (.invalidArgument "random_range_rounded expects two numbers")) σ
  | sameNumber {args : List Value} {σ : World} {x : Float} : argument args 0 = .number x →
      Performs .toDouble args σ (.ok (.number x)) σ
  | readNumber {args : List Value} {σ : World} {s : String} {x : Float} :
      argument args 0 = .string s → Number.read? (Text.trim s.toList) = some x →
      Performs .toDouble args σ (.ok (.number x)) σ
  | readFault {args : List Value} {σ : World} {s : String} :
      argument args 0 = .string s → Number.read? (Text.trim s.toList) = none →
      Performs .toDouble args σ (.error (.conversion ("\"" ++ s ++ "\"") "number")) σ
  | conversionFault {args : List Value} {σ : World} :
      (∀ x, argument args 0 ≠ .number x) → (∀ s, argument args 0 ≠ .string s) →
      Performs .toDouble args σ
        (.error (.conversion (argument args 0).typeName "number")) σ
  | toText {args : List Value} {σ : World} :
      Performs .toText args σ (.ok (.string (argument args 0).text)) σ
  /-- Both print functions write as much as there is room for. -/
  | print {op : Native} {args : List Value} {σ : World} {text : String} :
      (op = .print ∧ text = (argument args 0).text) ∨
        (op = .printLine ∧ text = (argument args 0).text ++ "\n") →
      σ.output.fits text = true →
      Performs op args σ (.ok .nil) { σ with output := σ.output.write text }
  | printFault {op : Native} {args : List Value} {σ : World} {text : String} :
      (op = .print ∧ text = (argument args 0).text) ∨
        (op = .printLine ∧ text = (argument args 0).text ++ "\n") →
      σ.output.fits text = false →
      Performs op args σ (.error (.io sinkFullWords)) { σ with output := σ.output.write text }
  /-- What a host function answers is up to the host. -/
  | constant {function : HostFunction} {args : List Value} {σ : World} {value : Literal} :
      function (args.map Value.look) = .ok (.constant value) →
      Performs (.host function) args σ (.ok (.ofLiteral value)) σ
  | passed {function : HostFunction} {args : List Value} {σ : World} {place : Nat} :
      function (args.map Value.look) = .ok (.argument place) →
      Performs (.host function) args σ (.ok (argument args place)) σ
  | hostFault {function : HostFunction} {args : List Value} {σ : World} {fault : Fault} :
      function (args.map Value.look) = .error fault →
      Performs (.host function) args σ (.error fault) σ

/-! ### Expressions, calls and statements -/

mutual

/-- The expression comes to the ending. -/
inductive Evaluates : Expr → ScopeId → World → Ending Value → World → Prop where
  | literal {value : Literal} {scope : ScopeId} {σ : World} :
      Evaluates (.literal value) scope σ (.value (.ofLiteral value)) σ
  | group {e : Expr} {scope : ScopeId} {σ σ' : World} {o : Ending Value} :
      Evaluates e scope σ o σ' → Evaluates (.group e) scope σ o σ'
  | unary {op : Token} {e : Expr} {scope : ScopeId} {σ σ' : World} {v : Value}
      {reply : Except Fault Value} :
      Evaluates e scope σ (.value v) σ' → UnaryRule op.kind v reply →
      Evaluates (.unary op e) scope σ (.ofReply op reply) σ'
  | unaryError {op : Token} {e : Expr} {scope : ScopeId} {σ σ' : World} {r : RuntimeError} :
      Evaluates e scope σ (.error r) σ' → Evaluates (.unary op e) scope σ (.error r) σ'
  /-- The left operand comes first. -/
  | binary {op : Token} {a b : Expr} {scope : ScopeId} {σ σ₁ σ₂ : World} {v w : Value}
      {reply : Except Fault Value} :
      Evaluates a scope σ (.value v) σ₁ → Evaluates b scope σ₁ (.value w) σ₂ →
      BinaryRule op.kind v w reply → Evaluates (.binary a op b) scope σ (.ofReply op reply) σ₂
  | binaryLeft {op : Token} {a b : Expr} {scope : ScopeId} {σ σ' : World} {r : RuntimeError} :
      Evaluates a scope σ (.error r) σ' → Evaluates (.binary a op b) scope σ (.error r) σ'
  | binaryRight {op : Token} {a b : Expr} {scope : ScopeId} {σ σ₁ σ₂ : World} {v : Value}
      {r : RuntimeError} :
      Evaluates a scope σ (.value v) σ₁ → Evaluates b scope σ₁ (.error r) σ₂ →
      Evaluates (.binary a op b) scope σ (.error r) σ₂
  /-- The left operand decides, and the right one is skipped. -/
  | logicalLeft {op : Token} {a b : Expr} {scope : ScopeId} {σ σ' : World} {v : Value} :
      Evaluates a scope σ (.value v) σ' → Decides op.kind v →
      Evaluates (.logical a op b) scope σ (.value v) σ'
  | logicalRight {op : Token} {a b : Expr} {scope : ScopeId} {σ σ₁ σ₂ : World} {v : Value}
      {o : Ending Value} :
      Evaluates a scope σ (.value v) σ₁ → ¬ Decides op.kind v → Evaluates b scope σ₁ o σ₂ →
      Evaluates (.logical a op b) scope σ o σ₂
  | logicalError {op : Token} {a b : Expr} {scope : ScopeId} {σ σ' : World}
      {r : RuntimeError} :
      Evaluates a scope σ (.error r) σ' → Evaluates (.logical a op b) scope σ (.error r) σ'
  | get {name : Token} {scope owner : ScopeId} {σ : World} {cell : Scope} {v : Value} :
      σ.scopes.Nearest name.lexeme scope owner → σ.scopes.at? owner = some cell →
      cell.find? name.lexeme = some v → Evaluates (.get name) scope σ (.value v) σ
  | getUnbound {name : Token} {scope : ScopeId} {σ : World} : σ.Unbound scope name.lexeme →
      Evaluates (.get name) scope σ (.error ⟨name, .undefinedVariable name.name⟩) σ
  /-- The scope is looked for when the value is known. -/
  | set {name : Token} {e : Expr} {scope owner : ScopeId} {σ σ' : World} {v : Value} :
      Evaluates e scope σ (.value v) σ' → σ'.scopes.Nearest name.lexeme scope owner →
      Evaluates (.set name e) scope σ (.value v) (σ'.update owner name.lexeme v)
  | setUnbound {name : Token} {e : Expr} {scope : ScopeId} {σ σ' : World} {v : Value} :
      Evaluates e scope σ (.value v) σ' → σ'.Unbound scope name.lexeme →
      Evaluates (.set name e) scope σ (.error ⟨name, .undefinedVariable name.name⟩) σ'
  | setError {name : Token} {e : Expr} {scope : ScopeId} {σ σ' : World} {r : RuntimeError} :
      Evaluates e scope σ (.error r) σ' → Evaluates (.set name e) scope σ (.error r) σ'
  /-- What is called comes first, then the arguments, then the checks, then the call. -/
  | call {callee : Expr} {paren : Token} {args : List Expr} {scope : ScopeId}
      {σ σ₁ σ₂ σ₃ : World} {f : Callable} {vs : List Value} {o : Ending Value} :
      Evaluates callee scope σ (.value (.callable f)) σ₁ →
      EvaluatesAll args scope σ₁ (.value vs) σ₂ → vs.length = f.arity →
      Calls f paren vs σ₂ o σ₃ → Evaluates (.call callee paren args) scope σ o σ₃
  | callArity {callee : Expr} {paren : Token} {args : List Expr} {scope : ScopeId}
      {σ σ₁ σ₂ : World} {f : Callable} {vs : List Value} :
      Evaluates callee scope σ (.value (.callable f)) σ₁ →
      EvaluatesAll args scope σ₁ (.value vs) σ₂ → vs.length ≠ f.arity →
      Evaluates (.call callee paren args) scope σ
        (.error ⟨paren, .arityMismatch f.arity vs.length⟩) σ₂
  | callOther {callee : Expr} {paren : Token} {args : List Expr} {scope : ScopeId}
      {σ σ₁ σ₂ : World} {v : Value} {vs : List Value} :
      Evaluates callee scope σ (.value v) σ₁ → EvaluatesAll args scope σ₁ (.value vs) σ₂ →
      (∀ f, v ≠ .callable f) →
      Evaluates (.call callee paren args) scope σ (.error ⟨paren, .notCallable⟩) σ₂
  | callError {callee : Expr} {paren : Token} {args : List Expr} {scope : ScopeId}
      {σ σ' : World} {r : RuntimeError} :
      Evaluates callee scope σ (.error r) σ' →
      Evaluates (.call callee paren args) scope σ (.error r) σ'
  | argumentError {callee : Expr} {paren : Token} {args : List Expr} {scope : ScopeId}
      {σ σ₁ σ₂ : World} {v : Value} {r : RuntimeError} :
      Evaluates callee scope σ (.value v) σ₁ → EvaluatesAll args scope σ₁ (.error r) σ₂ →
      Evaluates (.call callee paren args) scope σ (.error r) σ₂

/-- The expressions, from left to right, come to the ending. -/
inductive EvaluatesAll :
    List Expr → ScopeId → World → Ending (List Value) → World → Prop where
  | nil {scope : ScopeId} {σ : World} : EvaluatesAll [] scope σ (.value []) σ
  | cons {e : Expr} {es : List Expr} {scope : ScopeId} {σ σ₁ σ₂ : World} {v : Value}
      {vs : List Value} :
      Evaluates e scope σ (.value v) σ₁ → EvaluatesAll es scope σ₁ (.value vs) σ₂ →
      EvaluatesAll (e :: es) scope σ (.value (v :: vs)) σ₂
  | first {e : Expr} {es : List Expr} {scope : ScopeId} {σ σ' : World} {r : RuntimeError} :
      Evaluates e scope σ (.error r) σ' → EvaluatesAll (e :: es) scope σ (.error r) σ'
  | later {e : Expr} {es : List Expr} {scope : ScopeId} {σ σ₁ σ₂ : World} {v : Value}
      {r : RuntimeError} :
      Evaluates e scope σ (.value v) σ₁ → EvaluatesAll es scope σ₁ (.error r) σ₂ →
      EvaluatesAll (e :: es) scope σ (.error r) σ₂

/-- Calling the function with the arguments comes to the ending. -/
inductive Calls : Callable → Token → List Value → World → Ending Value → World → Prop where
  | native {identity arity : Nat} {name : String} {op : Native} {paren : Token}
      {args : List Value} {σ σ' : World} {reply : Except Fault Value} :
      Performs op args σ reply σ' →
      Calls ⟨identity, .native name arity op⟩ paren args σ (.ofReply paren reply) σ'
  /-- The body runs in a new scope inside the scope of the declaration. -/
  | normal {identity : Nat} {decl : FunctionDef} {closure : ScopeId} {paren : Token}
      {args : List Value} {σ σ' : World} :
      ExecutesAll decl.body σ.fresh (σ.nest closure decl.params args) (.value .normal) σ' →
      Calls ⟨identity, .user decl closure⟩ paren args σ (.value .nil) σ'
  | returned {identity : Nat} {decl : FunctionDef} {closure : ScopeId} {paren : Token}
      {args : List Value} {σ σ' : World} {v : Value} :
      ExecutesAll decl.body σ.fresh (σ.nest closure decl.params args)
        (.value (.returned v)) σ' →
      Calls ⟨identity, .user decl closure⟩ paren args σ (.value v) σ'
  | error {identity : Nat} {decl : FunctionDef} {closure : ScopeId} {paren : Token}
      {args : List Value} {σ σ' : World} {r : RuntimeError} :
      ExecutesAll decl.body σ.fresh (σ.nest closure decl.params args) (.error r) σ' →
      Calls ⟨identity, .user decl closure⟩ paren args σ (.error r) σ'

/-- The statement comes to the ending. -/
inductive Executes : Stmt → ScopeId → World → Ending Flow → World → Prop where
  | expression {e : Expr} {scope : ScopeId} {σ σ' : World} {v : Value} :
      Evaluates e scope σ (.value v) σ' →
      Executes (.expression e) scope σ (.value .normal) σ'
  | expressionError {e : Expr} {scope : ScopeId} {σ σ' : World} {r : RuntimeError} :
      Evaluates e scope σ (.error r) σ' → Executes (.expression e) scope σ (.error r) σ'
  | declareNil {name : Token} {scope : ScopeId} {σ : World} :
      Executes (.declare name none) scope σ (.value .normal) (σ.bind scope name.lexeme .nil)
  | declare {name : Token} {e : Expr} {scope : ScopeId} {σ σ' : World} {v : Value} :
      Evaluates e scope σ (.value v) σ' →
      Executes (.declare name (some e)) scope σ (.value .normal) (σ'.bind scope name.lexeme v)
  | declareError {name : Token} {e : Expr} {scope : ScopeId} {σ σ' : World}
      {r : RuntimeError} :
      Evaluates e scope σ (.error r) σ' →
      Executes (.declare name (some e)) scope σ (.error r) σ'
  /-- The body runs in a new scope, and whatever it comes to, the block comes to. -/
  | block {body : List Stmt} {scope : ScopeId} {σ σ' : World} {o : Ending Flow} :
      ExecutesAll body σ.fresh (σ.nest scope [] []) o σ' →
      Executes (.block body) scope σ o σ'
  | branchYes {c : Expr} {yes : Stmt} {no : Option Stmt} {scope : ScopeId} {σ σ₁ σ₂ : World}
      {v : Value} {o : Ending Flow} :
      Evaluates c scope σ (.value v) σ₁ → ¬ Falsy v → Executes yes scope σ₁ o σ₂ →
      Executes (.branch c yes no) scope σ o σ₂
  | branchNo {c : Expr} {yes no : Stmt} {scope : ScopeId} {σ σ₁ σ₂ : World} {v : Value}
      {o : Ending Flow} :
      Evaluates c scope σ (.value v) σ₁ → Falsy v → Executes no scope σ₁ o σ₂ →
      Executes (.branch c yes (some no)) scope σ o σ₂
  | branchNone {c : Expr} {yes : Stmt} {scope : ScopeId} {σ σ' : World} {v : Value} :
      Evaluates c scope σ (.value v) σ' → Falsy v →
      Executes (.branch c yes none) scope σ (.value .normal) σ'
  | branchError {c : Expr} {yes : Stmt} {no : Option Stmt} {scope : ScopeId} {σ σ' : World}
      {r : RuntimeError} :
      Evaluates c scope σ (.error r) σ' → Executes (.branch c yes no) scope σ (.error r) σ'
  | loopEnd {c : Expr} {body : Stmt} {scope : ScopeId} {σ σ' : World} {v : Value} :
      Evaluates c scope σ (.value v) σ' → Falsy v →
      Executes (.loop c body) scope σ (.value .normal) σ'
  | loopRound {c : Expr} {body : Stmt} {scope : ScopeId} {σ σ₁ σ₂ σ₃ : World} {v : Value}
      {o : Ending Flow} :
      Evaluates c scope σ (.value v) σ₁ → ¬ Falsy v →
      Executes body scope σ₁ (.value .normal) σ₂ → Executes (.loop c body) scope σ₂ o σ₃ →
      Executes (.loop c body) scope σ o σ₃
  | loopReturned {c : Expr} {body : Stmt} {scope : ScopeId} {σ σ₁ σ₂ : World} {v w : Value} :
      Evaluates c scope σ (.value v) σ₁ → ¬ Falsy v →
      Executes body scope σ₁ (.value (.returned w)) σ₂ →
      Executes (.loop c body) scope σ (.value (.returned w)) σ₂
  | loopBodyError {c : Expr} {body : Stmt} {scope : ScopeId} {σ σ₁ σ₂ : World} {v : Value}
      {r : RuntimeError} :
      Evaluates c scope σ (.value v) σ₁ → ¬ Falsy v → Executes body scope σ₁ (.error r) σ₂ →
      Executes (.loop c body) scope σ (.error r) σ₂
  | loopError {c : Expr} {body : Stmt} {scope : ScopeId} {σ σ' : World} {r : RuntimeError} :
      Evaluates c scope σ (.error r) σ' → Executes (.loop c body) scope σ (.error r) σ'
  /-- Each declaration makes a function of its own, which remembers the scope it is in. -/
  | function {name : Token} {params : List Token} {body : List Stmt} {scope : ScopeId}
      {σ : World} :
      Executes (.function name params body) scope σ (.value .normal)
        (World.bind { σ with identities := σ.identities + 1 } scope name.lexeme
          (.callable ⟨σ.identities, .user ⟨name, params, body⟩ scope⟩))
  | giveBackNil {word : Token} {scope : ScopeId} {σ : World} :
      Executes (.giveBack word none) scope σ (.value (.returned .nil)) σ
  | giveBack {word : Token} {e : Expr} {scope : ScopeId} {σ σ' : World} {v : Value} :
      Evaluates e scope σ (.value v) σ' →
      Executes (.giveBack word (some e)) scope σ (.value (.returned v)) σ'
  | giveBackError {word : Token} {e : Expr} {scope : ScopeId} {σ σ' : World}
      {r : RuntimeError} :
      Evaluates e scope σ (.error r) σ' →
      Executes (.giveBack word (some e)) scope σ (.error r) σ'

/-- The statements, one after the other until one does not end normally, come to the
ending. -/
inductive ExecutesAll : List Stmt → ScopeId → World → Ending Flow → World → Prop where
  | nil {scope : ScopeId} {σ : World} : ExecutesAll [] scope σ (.value .normal) σ
  | cons {s : Stmt} {ss : List Stmt} {scope : ScopeId} {σ σ₁ σ₂ : World} {o : Ending Flow} :
      Executes s scope σ (.value .normal) σ₁ → ExecutesAll ss scope σ₁ o σ₂ →
      ExecutesAll (s :: ss) scope σ o σ₂
  | returned {s : Stmt} {ss : List Stmt} {scope : ScopeId} {σ σ' : World} {v : Value} :
      Executes s scope σ (.value (.returned v)) σ' →
      ExecutesAll (s :: ss) scope σ (.value (.returned v)) σ'
  | error {s : Stmt} {ss : List Stmt} {scope : ScopeId} {σ σ' : World} {r : RuntimeError} :
      Executes s scope σ (.error r) σ' → ExecutesAll (s :: ss) scope σ (.error r) σ'

end

/-- The program comes to its end, or to an error. What it gives back is dropped. -/
inductive Interprets : Program → ScopeId → World → Ending Unit → World → Prop where
  | done {program : Program} {scope : ScopeId} {σ σ' : World} {flow : Flow} :
      ExecutesAll program scope σ (.value flow) σ' →
      Interprets program scope σ (.value ()) σ'
  | error {program : Program} {scope : ScopeId} {σ σ' : World} {r : RuntimeError} :
      ExecutesAll program scope σ (.error r) σ' → Interprets program scope σ (.error r) σ'

end Scriptlet.Semantics
