import Scriptlet.Proofs.Run.Native
import Scriptlet.Run.Eval

/-!
# `Scriptlet.Proofs.Run.Upkeep`: what every run keeps

Many facts about running programs have one shape: each small thing that a program does to
the machine keeps something, and so whole runs keep it. The induction behind them is here,
once.

An `Upkeep` names what is kept: the machines in which programs run (`Ready`), how a machine
may change (`Change`), the function values it may hold (`Holds`), and the trees that may be
run (`Evals`, `Runs`). It is `Lawful` if the small things respect it: a note, an operation
that is not written in the language, a declaration, an assignment, a new function value, and
the way into a new scope and back.

* `Upkeep.eval_keeps`, `Upkeep.exec_keeps`, `Upkeep.execAll_keeps`: a lawful upkeep is
  respected by every evaluation and every execution that ends, whether it is done or failed.
* `Upkeep.runProgram_keeps`: and by whole programs.
-/

set_option autoImplicit false

namespace Scriptlet

/-! ### Outcomes -/

namespace Outcome

variable {α β : Type}

/-- The machine at the end is as `done` says if there is a result, and as `failed` says if
there is an error. Nothing is said of a starved outcome. -/
def Meets (done : α → Machine → Prop) (failed : Machine → Prop) : Outcome α → Prop
  | .done result m => done result m
  | .failed _ m => failed m
  | .starved => True

/-- The rule for two steps in a row. -/
theorem meets_andThen {x : Outcome α} {next : α → Machine → Outcome β}
    {Q : α → Machine → Prop} {Q' : β → Machine → Prop} {E E' : Machine → Prop}
    (hx : x.Meets Q E) (hE : ∀ m, E m → E' m)
    (hnext : ∀ v m, Q v m → (next v m).Meets Q' E') : (x.andThen next).Meets Q' E' := by
  cases x with
  | done result m => exact hnext result m hx
  | failed error m => exact hE m hx
  | starved => trivial

end Outcome

/-! ### Scopes of blocks and calls -/

/-- The machine in a new scope inside `parent` that binds parameters to arguments. -/
def Machine.inside (m : Machine) (parent : ScopeId) (params : List Token)
    (args : List Value) : Machine :=
  let (scope, opened) := m.openScope parent
  { opened with
    scopes := opened.scopes.defineAll scope params args
    current := scope }

/-- Running in another scope, seen from the machine that goes there. -/
theorem execIn_succ (n : Nat) (scope : ScopeId) (body : List Stmt) (m : Machine) :
    execIn (n + 1) scope body m
      = (execAll n body (m.enter scope)).mapMachine (·.enter m.current) := rfl

/-! ### Trees -/

/-- The expressions right below an expression. -/
def Expr.parts : Expr → List Expr
  | .literal _ | .get _ => []
  | .group e | .unary _ e | .set _ e => [e]
  | .binary a _ b | .logical a _ b => [a, b]
  | .call f _ args => f :: args

/-- The statements right below a statement. -/
def Stmt.parts : Stmt → List Stmt
  | .block body | .function _ _ body => body
  | .branch _ yes no => yes :: no.toList
  | .loop _ body => [body]
  | .expression _ | .declare _ _ | .giveBack _ _ => []

/-- The expressions right below a statement. -/
def Stmt.exprs : Stmt → List Expr
  | .expression e | .branch e _ _ | .loop e _ => [e]
  | .declare _ e | .giveBack _ e => e.toList
  | .block _ | .function _ _ _ => []

/-! ### Upkeeps -/

/-- What is kept while programs run. -/
structure Upkeep where
  /-- The machines in which programs run. -/
  Ready : Machine → Prop
  /-- How a machine may change. -/
  Change : Machine → Machine → Prop
  /-- The function values that a machine may hold. -/
  Holds : Machine → Callable → Prop
  /-- The expressions that may be evaluated. -/
  Evals : Expr → Prop
  /-- The statements that may be run. -/
  Runs : Stmt → Prop

namespace Upkeep

variable (u : Upkeep)

/-- The values that a machine may hold: values other than functions are always welcome. -/
def HoldsValue (m : Machine) : Value → Prop
  | .callable f => u.Holds m f
  | _ => True

/-- The small things that a program does respect the upkeep. -/
structure Lawful : Prop where
  refl {m : Machine} : u.Ready m → u.Change m m
  trans {m m₁ m₂ : Machine} : u.Change m m₁ → u.Change m₁ m₂ → u.Change m m₂
  ready {m m₁ : Machine} : u.Change m m₁ → u.Ready m₁
  /-- What is held once is held for ever. -/
  holds {m m₁ : Machine} {f : Callable} : u.Change m m₁ → u.Holds m f → u.Holds m₁ f
  holds_enter {m : Machine} {f : Callable} {scope : ScopeId} :
    u.Holds m f → u.Holds (m.enter scope) f
  parts_evals {e part : Expr} : u.Evals e → part ∈ e.parts → u.Evals part
  parts_runs {s part : Stmt} : u.Runs s → part ∈ s.parts → u.Runs part
  exprs_evals {s : Stmt} {e : Expr} : u.Runs s → e ∈ s.exprs → u.Evals e
  /-- A function value that is held may be called. -/
  body_runs {m : Machine} {identity : Nat} {decl : FunctionDef} {closure : ScopeId} {s : Stmt} :
    u.Holds m ⟨identity, .user decl closure⟩ → s ∈ decl.body → u.Runs s
  note {m : Machine} (record : Record) : u.Ready m → u.Change m (m.note record)
  native {m : Machine} (op : Native) {args : List Value} :
    u.Ready m → (∀ v ∈ args, u.HoldsValue m v) → u.Change m (op.run args m).2
  get {m : Machine} {name : Symbol} {f : Callable} :
    u.Ready m → m.get? name = some (.callable f) → u.Holds m f
  assign {m : Machine} {name : Token} {e : Expr} {owner : ScopeId} {v : Value} :
    u.Evals (.set name e) → u.Ready m → u.HoldsValue m v →
    m.owner? name.lexeme = some owner → u.Change m (m.assignAt owner name.lexeme v)
  declare {m : Machine} {name : Token} {init : Option Expr} {v : Value} :
    u.Runs (.declare name init) → u.Ready m → u.HoldsValue m v →
    u.Change m (m.define name.lexeme v)
  /-- A function declaration makes a function value and binds it to the name. -/
  function {m : Machine} {name : Token} {params : List Token} {body : List Stmt} :
    u.Runs (.function name params body) → u.Ready m →
    u.Change m ((m.makeCallable (.user ⟨name, params, body⟩ m.current)).2.define name.lexeme
      (.callable ⟨m.identities, .user ⟨name, params, body⟩ m.current⟩))
  /-- The way into the scope of a block. -/
  block {m : Machine} : u.Ready m → u.Ready (m.inside m.current [] [])
  /-- The way into the scope of a call. -/
  call {m : Machine} {identity : Nat} {decl : FunctionDef} {closure : ScopeId}
    {args : List Value} : u.Ready m → u.Holds m ⟨identity, .user decl closure⟩ →
    (∀ v ∈ args, u.HoldsValue m v) → u.Ready (m.inside closure decl.params args)
  /-- The way back from the scope of a block or a call. -/
  leave {m m₁ : Machine} {parent : ScopeId} {params : List Token} {args : List Value} :
    u.Ready m → u.Change (m.inside parent params args) m₁ →
    u.Change m (m₁.enter m.current)

variable {u}

/-- A value that is held goes on to be held. -/
theorem Lawful.holdsValue (h : u.Lawful) {m m₁ : Machine} {v : Value} (hc : u.Change m m₁)
    (hv : u.HoldsValue m v) : u.HoldsValue m₁ v := by
  cases v with
  | callable f => exact h.holds hc hv
  | _ => trivial

/-- Going to another scope loses no value. -/
theorem Lawful.holdsValue_enter (h : u.Lawful) {m : Machine} {v : Value} (scope : ScopeId)
    (hv : u.HoldsValue m v) : u.HoldsValue (m.enter scope) v := by
  cases v with
  | callable f => exact h.holds_enter hv
  | _ => trivial

variable {α β : Type}

/-- An outcome that respects the upkeep, with a result as `P` says. -/
def Keeps (u : Upkeep) (P : Machine → α → Prop) (m : Machine) (x : Outcome α) : Prop :=
  x.Meets (fun v m₁ => u.Change m m₁ ∧ P m₁ v) (u.Change m)

/-- A change in front of an outcome. -/
theorem Lawful.after (h : u.Lawful) {P : Machine → α → Prop} {m m₁ : Machine}
    {x : Outcome α} (hchange : u.Change m m₁) (hx : u.Keeps P m₁ x) : u.Keeps P m x := by
  cases x with
  | done v m₂ => exact ⟨h.trans hchange hx.1, hx.2⟩
  | failed error m₂ => exact h.trans hchange hx
  | starved => trivial

/-- The rule for two steps in a row. -/
theorem Lawful.andThen (h : u.Lawful) {P : Machine → α → Prop} {P' : Machine → β → Prop}
    {m : Machine} {x : Outcome α} {next : α → Machine → Outcome β} (hx : u.Keeps P m x)
    (hnext : ∀ v m₁, u.Change m m₁ → u.Ready m₁ → P m₁ v → u.Keeps P' m₁ (next v m₁)) :
    u.Keeps P' m (x.andThen next) := by
  refine Outcome.meets_andThen hx (fun _ hm => hm) ?_
  rintro v m₁ ⟨hchange, hv⟩
  exact h.after hchange (hnext v m₁ hchange (h.ready hchange) hv)

/-- A result that is found without a change. -/
theorem Lawful.done (h : u.Lawful) {P : Machine → α → Prop} {m : Machine} {v : α}
    (hm : u.Ready m) (hv : P m v) : u.Keeps P m (.done v m) :=
  ⟨h.refl hm, hv⟩

/-- An error that is met without a change. -/
theorem Lawful.failed (h : u.Lawful) {P : Machine → α → Prop} {m : Machine}
    (error : RuntimeError) (hm : u.Ready m) : u.Keeps P m (.failed error m) :=
  h.refl hm

/-- A result or a fault that is found without a change. -/
theorem Lawful.ofExcept (h : u.Lawful) {P : Machine → α → Prop} {m : Machine}
    (token : Token) {x : Except Fault α} (hm : u.Ready m) (hx : ∀ v, x = .ok v → P m v) :
    u.Keeps P m (.ofExcept token x m) := by
  cases x with
  | ok v => exact h.done hm (hx v rfl)
  | error fault => exact h.failed _ hm

mutual

/-- Evaluating an expression respects the upkeep. This is the induction that all the facts of this
shape have in common: on the steps, with one case for each kind of expression. -/
theorem eval_keeps (h : u.Lawful) : ∀ n {e m}, u.Evals e → u.Ready m →
    u.Keeps u.HoldsValue m (eval n e m)
  | 0, _, _, _, _ => trivial
  | n + 1, e, m, he, hm => by
    cases e with
    | literal value =>
        refine h.done hm ?_
        cases value <;> trivial
    | group inner => exact eval_keeps h n (h.parts_evals he (by simp [Expr.parts])) hm
    | unary op operand =>
        refine h.andThen (eval_keeps h n (h.parts_evals he (by simp [Expr.parts])) hm) ?_
        intro v m₁ _ hm₁ _
        refine h.ofExcept op hm₁ fun w hw => ?_
        cases w with
        -- An operator never makes a function value.
        | callable f => exact absurd hw Operator.unary_ne_callable
        | _ => trivial
    | binary left op right =>
        refine h.andThen (eval_keeps h n (h.parts_evals he (by simp [Expr.parts])) hm) ?_
        intro v m₁ _ hm₁ _
        refine h.andThen (eval_keeps h n (h.parts_evals he (by simp [Expr.parts])) hm₁) ?_
        intro w m₂ _ hm₂ _
        refine h.ofExcept op hm₂ fun x hx => ?_
        cases x with
        | callable f => exact absurd hx Operator.binary_ne_callable
        | _ => trivial
    | logical left op right =>
        refine h.andThen (eval_keeps h n (h.parts_evals he (by simp [Expr.parts])) hm) ?_
        intro v m₁ _ hm₁ hv
        split
        · exact h.done hm₁ hv
        · exact eval_keeps h n (h.parts_evals he (by simp [Expr.parts])) hm₁
    | get name =>
        simp only [eval]
        split
        case h_1 v hv =>
          refine h.done hm ?_
          cases v with
          | callable f => exact h.get hm hv
          | _ => trivial
        case h_2 => exact h.failed _ hm
    | set name value =>
        refine h.andThen (eval_keeps h n (h.parts_evals he (by simp [Expr.parts])) hm) ?_
        intro v m₁ _ hm₁ hv
        split
        case h_1 owner howner =>
          have hchange := h.assign he hm₁ hv howner
          exact ⟨hchange, h.holdsValue hchange hv⟩
        case h_2 => exact h.failed _ hm₁
    | call callee paren args =>
        refine h.andThen (eval_keeps h n (h.parts_evals he (by simp [Expr.parts])) hm) ?_
        intro v m₁ _ hm₁ hv
        refine h.andThen (evalAll_keeps h n
          (fun e' he' => h.parts_evals he (by simp [Expr.parts, he'])) hm₁) ?_
        intro vs m₂ hchange hm₂ hvs
        cases v with
        | callable f =>
            dsimp only
            split
            -- The record of the call comes first, and the values of before it are still held.
            · have hnote := h.note (.calling f.text vs.length) hm₂
              refine h.after hnote (invoke_keeps h n ?_ ?_ (h.ready hnote))
              · exact h.holds hnote (h.holds hchange hv)
              · exact fun w hw => h.holdsValue hnote (hvs w hw)
            · exact h.failed _ hm₂
        | _ => exact h.failed _ hm₂

/-- Several expressions. The values that are there stay held while the others are evaluated. -/
theorem evalAll_keeps (h : u.Lawful) : ∀ n {es m}, (∀ e ∈ es, u.Evals e) → u.Ready m →
    u.Keeps (fun m vs => ∀ v ∈ vs, u.HoldsValue m v) m (evalAll n es m)
  | 0, _, _, _, _ => trivial
  | n + 1, [], m, _, hm => h.done hm (by simp)
  | n + 1, e :: es, m, hes, hm => by
    refine h.andThen (eval_keeps h n (hes e (by simp)) hm) ?_
    intro v m₁ _ hm₁ hv
    refine h.andThen (evalAll_keeps h n (fun e' he' => hes e' (by simp [he'])) hm₁) ?_
    intro vs m₂ hchange hm₂ hvs
    refine h.done hm₂ ?_
    rintro w (_ | ⟨_, hw⟩)
    · exact h.holdsValue hchange hv
    · exact hvs w hw

/-- A call, of a host function or of a declared one. -/
theorem invoke_keeps (h : u.Lawful) : ∀ n {f paren args m}, u.Holds m f →
    (∀ v ∈ args, u.HoldsValue m v) → u.Ready m →
    u.Keeps u.HoldsValue m (invoke n f paren args m)
  | 0, _, _, _, _, _, _, _ => trivial
  | n + 1, ⟨identity, .native name arity op⟩, paren, args, m, _, hargs, hm => by
    have hchange := h.native op hm hargs
    refine h.after hchange (h.ofExcept paren (h.ready hchange) fun v hv => ?_)
    cases v with
    -- A native function gives back a function value only if it was given it.
    | callable f => exact h.holdsValue hchange (hargs _ (Native.mem_of_run hv))
    | _ => trivial
  | n + 1, ⟨identity, .user decl closure⟩, paren, args, m, hf, hargs, hm => by
    refine h.andThen (execIn_keeps h n rfl rfl hm (h.call hm hf hargs)
      (fun s hs => h.body_runs hf hs)) ?_
    intro flow m₁ _ hm₁ hflow
    exact h.done hm₁ hflow

/-- The body of a function or a block, with the way into its scope and back. -/
theorem execIn_keeps (h : u.Lawful) : ∀ n {scope body m m₀ parent params args},
    m.enter scope = m₀.inside parent params args → m.current = m₀.current → u.Ready m₀ →
    u.Ready (m₀.inside parent params args) → (∀ s ∈ body, u.Runs s) →
    u.Keeps (fun m flow => u.HoldsValue m flow.result) m₀ (execIn n scope body m)
  | 0, _, _, _, _, _, _, _, _, _, _, _, _ => trivial
  | n + 1, scope, body, m, m₀, parent, params, args, hinside, hcurrent, hm₀, hm, hbody => by
    -- `m` is the machine of `m₀` with the scope of the body in it, but not yet inside it.
    rw [execIn_succ, hinside, hcurrent]
    have hx := execAll_keeps h n hbody hm
    cases hy : execAll n body (m₀.inside parent params args) with
    | done flow m₁ =>
        rw [hy] at hx
        exact ⟨h.leave hm₀ hx.1, h.holdsValue_enter m₀.current hx.2⟩
    | failed error m₁ =>
        rw [hy] at hx
        exact h.leave hm₀ hx
    | starved => trivial

/-- Statements in a row. -/
theorem execAll_keeps (h : u.Lawful) : ∀ n {body m}, (∀ s ∈ body, u.Runs s) → u.Ready m →
    u.Keeps (fun m flow => u.HoldsValue m flow.result) m (execAll n body m)
  | 0, _, _, _, _ => trivial
  | n + 1, [], m, _, hm => h.done hm trivial
  | n + 1, s :: rest, m, hbody, hm => by
    refine h.andThen (exec_keeps h n (hbody s (by simp)) hm) ?_
    intro flow m₁ _ hm₁ hflow
    cases flow with
    | normal => exact execAll_keeps h n (fun s' hs' => hbody s' (by simp [hs'])) hm₁
    | returned v => exact h.done hm₁ hflow

/-- Executing a statement respects the upkeep. -/
theorem exec_keeps (h : u.Lawful) : ∀ n {s m}, u.Runs s → u.Ready m →
    u.Keeps (fun m flow => u.HoldsValue m flow.result) m (exec n s m)
  | 0, _, _, _, _ => trivial
  | n + 1, s, m, hs, hm => by
    cases s with
    | expression value =>
        refine h.andThen (eval_keeps h n (h.exprs_evals hs (by simp [Stmt.exprs])) hm) ?_
        intro v m₁ _ hm₁ _
        exact h.done hm₁ trivial
    | declare name init =>
        refine h.andThen (evalOptional_keeps h n
          (fun e he => h.exprs_evals hs (by simpa [Stmt.exprs] using he)) hm) ?_
        intro v m₁ _ hm₁ hv
        exact ⟨h.declare hs hm₁ hv, trivial⟩
    | block body =>
        exact execIn_keeps h n rfl rfl hm (h.block hm)
          (fun part hpart => h.parts_runs hs (by simpa [Stmt.parts] using hpart))
    | branch condition yes no =>
        refine h.andThen (eval_keeps h n (h.exprs_evals hs (by simp [Stmt.exprs])) hm) ?_
        intro v m₁ _ hm₁ _
        split
        · exact exec_keeps h n (h.parts_runs hs (by simp [Stmt.parts])) hm₁
        · cases no with
          | none => exact h.done hm₁ trivial
          | some no => exact exec_keeps h n (h.parts_runs hs (by simp [Stmt.parts])) hm₁
    | loop condition body =>
        exact repeatWhile_keeps h n (h.exprs_evals hs (by simp [Stmt.exprs]))
          (h.parts_runs hs (by simp [Stmt.parts])) hm
    | function name params body =>
        have hnote := h.note (.declaring name.name params.length) hm
        exact ⟨h.trans hnote (h.function hs (h.ready hnote)), trivial⟩
    | giveBack word result =>
        refine h.andThen (evalOptional_keeps h n
          (fun e he => h.exprs_evals hs (by simpa [Stmt.exprs] using he)) hm) ?_
        intro v m₁ _ hm₁ hv
        exact h.done hm₁ hv

/-- A value that may be missing, and is nil then. -/
theorem evalOptional_keeps (h : u.Lawful) : ∀ n {e m}, (∀ e' ∈ e, u.Evals e') → u.Ready m →
    u.Keeps u.HoldsValue m (evalOptional n e m)
  | 0, _, _, _, _ => trivial
  | _ + 1, none, _, _, hm => h.done hm trivial
  | n + 1, some e, _, he, hm => eval_keeps h n (he e rfl) hm

/-- Rounds of a loop. -/
theorem repeatWhile_keeps (h : u.Lawful) : ∀ n {condition body m}, u.Evals condition →
    u.Runs body → u.Ready m →
    u.Keeps (fun m flow => u.HoldsValue m flow.result) m (repeatWhile n condition body m)
  | 0, _, _, _, _, _, _ => trivial
  | n + 1, condition, body, m, hcondition, hbody, hm => by
    refine h.andThen (eval_keeps h n hcondition hm) ?_
    intro v m₁ _ hm₁ _
    split
    · refine h.andThen (exec_keeps h n hbody hm₁) ?_
      intro flow m₂ _ hm₂ hflow
      cases flow with
      | normal => exact repeatWhile_keeps h n hcondition hbody hm₂
      | returned v => exact h.done hm₂ hflow
    · exact h.done hm₁ trivial

end

/-- Whole programs respect a lawful upkeep. -/
theorem runProgram_keeps (h : u.Lawful) (n : Nat) {program : Program} {m : Machine}
    (hprogram : ∀ s ∈ program, u.Runs s) (hm : u.Ready m) :
    u.Keeps (fun _ _ => True) m (runProgram n program m) := by
  refine h.andThen (execAll_keeps h n hprogram hm) ?_
  intro flow m₁ _ hm₁ _
  cases flow with
  | normal => exact h.done hm₁ trivial
  | returned v => exact ⟨h.note _ hm₁, trivial⟩

end Upkeep

end Scriptlet
