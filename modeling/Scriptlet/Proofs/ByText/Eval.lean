import Scriptlet.Proofs.ByText.Scopes
import Scriptlet.Proofs.Run.Look

/-!
# `Scriptlet.Proofs.ByText.Eval`: what programs do to scopes keyed by texts

A second evaluator, in which names are looked up, declared and assigned by their text. It
reads the text of a token and never its symbol. Everything else it does as `Scriptlet.eval`.

* `eval_byText`, `exec_byText` and their like: on a machine whose names, and whose functions'
  names, are symbols that differ exactly when their texts do, the evaluator by symbols ends as
  the evaluator by texts does.
* `runProgram_byText`: so it is with whole programs.
-/

set_option autoImplicit false

namespace Scriptlet

namespace ByText

/-! ### The machine -/

/-- The state of a program that runs by texts. -/
structure Machine where
  scopes : Scopes
  /-- All the rest of a machine. Its own scopes stay empty. -/
  host : Scriptlet.Machine

namespace Machine

/-- A machine with one empty scope. -/
def blank (input : Reader) (output : Sink) (generator : Generator)
    (clock : Clock) : Machine :=
  ⟨(Scopes.empty.openScope none).2,
    { Scriptlet.Machine.blank input output generator clock with scopes := .empty }⟩

/-- Writes down a record of what happened. -/
def note (m : Machine) (record : Record) : Machine := { m with host := m.host.note record }

/-- What a name stands for, as seen from the current scope. -/
def get? (m : Machine) (name : String) : Option Value := m.scopes.get? m.host.current name

/-- Binds a name in the current scope. -/
def define (m : Machine) (name : String) (value : Value) : Machine :=
  { m with scopes := m.scopes.define m.host.current name value }

/-- The nearest scope that binds the name, from the current one outwards. -/
def owner? (m : Machine) (name : String) : Option ScopeId :=
  m.scopes.resolve name m.host.current

/-- Gives a name that `owner` binds a new value. -/
def assignAt (m : Machine) (owner : ScopeId) (name : String) (value : Value) : Machine :=
  { m with scopes := m.scopes.assignAt owner name value }

/-- A new scope below `parent`. The current scope stays what it is. -/
def openScope (m : Machine) (parent : ScopeId) : ScopeId × Machine :=
  let (id, scopes) := m.scopes.openScope (some parent)
  (id, { m with scopes })

/-- Goes on in another scope. -/
def enter (m : Machine) (scope : ScopeId) : Machine := { m with host := m.host.enter scope }

/-- A function value with an identity of its own. -/
def makeCallable (m : Machine) (code : Code) : Value × Machine :=
  let (f, host) := m.host.makeCallable code
  (f, { m with host })

end Machine

/-! ### Programs -/

/-- A program that runs by texts: it fails with an error or has a result, and leaves a
machine, unless its supply of steps is used up. -/
abbrev Run (α : Type) := ExceptT RuntimeError (StateT Machine Option) α

namespace Run

variable {α : Type}

/-- The supply of steps is used up. -/
def starved : Run α := ExceptT.mk fun _ => none

/-- A result, or a fault at a token. -/
def ofExcept (token : Token) : Except Fault α → Run α
  | .ok result => pure result
  | .error fault => throw ⟨token, fault⟩

/-- An operation that is not written in the language. -/
def ofNative (op : Native) (args : List Value) (paren : Token) : Run Value := do
  let m ← get
  let (reply, host) := op.run args m.host
  set { m with host }
  ofExcept paren reply

/-- Runs in another scope, and comes back whatever happens. -/
def inScope (scope : ScopeId) (x : Run α) : Run α := ExceptT.mk fun m =>
  (x.run (m.enter scope)).map fun (result, after) => (result, after.enter m.host.current)

end Run

mutual

/-- The value of an expression. -/
def eval : Nat → Expr → Run Value
  | 0, _ => .starved
  | n + 1, e =>
    match e with
    | .literal value => pure (.ofLiteral value)
    | .group inner => eval n inner
    | .unary op operand => do
      let v ← eval n operand
      .ofExcept op (Operator.unary op.kind v)
    | .binary left op right => do
      let v ← eval n left
      let w ← eval n right
      .ofExcept op (Operator.binary op.kind v w)
    | .logical left op right => do
      let v ← eval n left
      if Operator.decides op.kind v then pure v else eval n right
    | .get name => do
      let m ← get
      match m.get? name.name with
      | some v => pure v
      | none => throw ⟨name, .undefinedVariable name.name⟩
    | .set name value => do
      let v ← eval n value
      let m ← get
      match m.owner? name.name with
      | some owner =>
        set (m.assignAt owner name.name v)
        pure v
      | none => throw ⟨name, .undefinedVariable name.name⟩
    | .call callee paren args => do
      let v ← eval n callee
      let vs ← evalAll n args
      match v with
      | .callable f =>
        if vs.length = f.arity then
          modify (·.note (.calling f.text vs.length))
          invoke n f paren vs
        else throw ⟨paren, .arityMismatch f.arity vs.length⟩
      | _ => throw ⟨paren, .notCallable⟩

/-- The values of several expressions, from left to right. -/
def evalAll : Nat → List Expr → Run (List Value)
  | 0, _ => .starved
  | _ + 1, [] => pure []
  | n + 1, e :: es => do
    let v ← eval n e
    let vs ← evalAll n es
    pure (v :: vs)

/-- Calls a function with as many arguments as it has parameters. -/
def invoke : Nat → Callable → Token → List Value → Run Value
  | 0, _, _, _ => .starved
  | n + 1, f, paren, args =>
    match f.code with
    | .native _ _ op => .ofNative op args paren
    | .user decl closure => do
      let (scope, m) := (← get).openScope closure
      set { m with scopes := m.scopes.defineAll scope decl.params args }
      let flow ← execIn n scope decl.body
      pure flow.result

/-- Runs statements in another scope, and comes back whatever happens. -/
def execIn : Nat → ScopeId → List Stmt → Run Flow
  | 0, _, _ => .starved
  | n + 1, scope, body => .inScope scope (execAll n body)

/-- Runs statements one after the other until one gives back a value. -/
def execAll : Nat → List Stmt → Run Flow
  | 0, _ => .starved
  | _ + 1, [] => pure .normal
  | n + 1, s :: rest => do
    match ← exec n s with
    | .normal => execAll n rest
    | .returned v => pure (.returned v)

/-- Runs a statement. -/
def exec : Nat → Stmt → Run Flow
  | 0, _ => .starved
  | n + 1, s =>
    match s with
    | .expression value => do
      let _ ← eval n value
      pure .normal
    | .declare name init => do
      let v ← evalOptional n init
      modify (·.define name.name v)
      pure .normal
    | .block body => do
      let m ← get
      let (scope, m) := m.openScope m.host.current
      set m
      execIn n scope body
    | .branch condition yes no => do
      let v ← eval n condition
      if v.isTruthy then exec n yes
      else
        match no with
        | some s => exec n s
        | none => pure .normal
    | .loop condition body => repeatWhile n condition body
    | .function name params body => do
      let m := (← get).note (.declaring name.name params.length)
      let (f, m) := m.makeCallable (.user ⟨name, params, body⟩ m.host.current)
      set (m.define name.name f)
      pure .normal
    | .giveBack _ result => do
      let v ← evalOptional n result
      pure (.returned v)

/-- The value of an expression, and nil if there is none. -/
def evalOptional : Nat → Option Expr → Run Value
  | 0, _ => .starved
  | _ + 1, none => pure .nil
  | n + 1, some e => eval n e

/-- Runs a statement again and again, as long as a condition holds before it. -/
def repeatWhile : Nat → Expr → Stmt → Run Flow
  | 0, _, _ => .starved
  | n + 1, condition, body => do
    let v ← eval n condition
    if v.isTruthy then
      match ← exec n body with
      | .normal => repeatWhile n condition body
      | .returned v => pure (.returned v)
    else pure .normal

end

/-- Runs a program in the current scope. A value given back ends the program and is
dropped. -/
def runProgram (n : Nat) (program : Program) : Run Unit := do
  match ← execAll n program with
  | .normal => pure ()
  | .returned v => modify (·.note (.discarding v.text))

end ByText

/-! ### Forgetting symbols -/

/-- The machine without the symbols in its scopes. -/
def Machine.byText (m : Machine) : ByText.Machine := ⟨m.scopes.byText, { m with scopes := .empty }⟩

/-- How running ends, without the symbols in the scopes. -/
def Outcome.byText {α : Type} : Outcome α → Option (Except RuntimeError α × ByText.Machine)
  | .done result m => some (.ok result, m.byText)
  | .failed error m => some (.error error, m.byText)
  | .starved => none

namespace Machine

variable {K : Symbol → Prop} {m : Machine} {name : Symbol}

/-- A variable has the same value by its symbol and by its text, since no other symbol in use has
the text. -/
theorem get?_byText (hK : TellsApart K) (hname : K name) (h : m.Sound K) :
    m.byText.get? name.name = m.get? name :=
  Scopes.get?_byText hK hname h.holds m.current

/-- It is found in the same scope. -/
theorem owner?_byText (hK : TellsApart K) (hname : K name) (h : m.Sound K) :
    m.byText.owner? name.name = m.owner? name :=
  Scopes.resolve_byText hK hname h.holds m.current

/-- Declaring by symbols, seen without the symbols, is declaring by texts. -/
theorem byText_define (hK : TellsApart K) (hname : K name) (h : m.Sound K) (v : Value) :
    (m.define name v).byText = m.byText.define name.name v :=
  congrArg (ByText.Machine.mk · _) (Scopes.byText_define hK hname h.holds m.current v)

/-- So is assigning. -/
theorem byText_assignAt (hK : TellsApart K) (hname : K name) (h : m.Sound K) (owner : ScopeId)
    (v : Value) : (m.assignAt owner name v).byText = m.byText.assignAt owner name.name v :=
  congrArg (ByText.Machine.mk · _) (Scopes.byText_assignAt hK hname h.holds owner v)

/-- A new machine has no names yet. -/
theorem byText_blank (input : Reader) (output : Sink) (generator : Generator)
    (clock : Clock) : (blank input output generator clock).byText =
      ByText.Machine.blank input output generator clock := by
  have hempty : Scopes.empty.byText = ByText.Scopes.empty := by
    simp [Scopes.byText, Scopes.empty, ByText.Scopes.empty]
  have hopened := congrArg Prod.snd (Scopes.byText_openScope .empty none)
  rw [hempty] at hopened
  exact congrArg (ByText.Machine.mk · _) hopened.symm

/-- A note has no names in it. -/
theorem byText_note (m : Machine) (record : Record) :
    m.byText.note record = (m.note record).byText := rfl

/-- Opening a scope has nothing to do with names. -/
theorem byText_openScope (m : Machine) (parent : ScopeId) :
    m.byText.openScope parent = ((m.openScope parent).1, (m.openScope parent).2.byText) := by
  unfold ByText.Machine.openScope byText
  rw [Scopes.byText_openScope]
  rfl

/-- An operation that is not written in the language sees no scopes. -/
theorem run_byText (op : Native) (args : List Value) (m : Machine) :
    op.run args m.byText.host = ((op.run args m).1, (op.run args m).2.byText.host) ∧
      (op.run args m).2.byText.scopes = m.byText.scopes := by
  have hblind := Native.blind_run op args m .empty m.current m.journal
  obtain ⟨input, output, generator, clock, hrun⟩ := Native.run_machine op args m
  refine ⟨?_, ?_⟩
  · rw [hrun] at hblind
    rw [hrun]
    exact hblind
  · rw [hrun]
    rfl

end Machine

/-! ### Both evaluators agree -/

namespace ByText.Run

variable {α β : Type}

/-- The program by texts, started on a machine without its symbols, ends as the outcome says. -/
def Agrees (x : Run α) (m : Scriptlet.Machine) (y : Outcome α) : Prop :=
  x.run.run m.byText = y.byText

/-- A result without any change. -/
theorem agrees_pure (v : α) (m : Scriptlet.Machine) : (pure v : Run α).Agrees m (.done v m) := rfl

/-- An error without any change. -/
theorem agrees_throw (e : RuntimeError) (m : Scriptlet.Machine) :
    (throw e : Run α).Agrees m (.failed e m) := rfl

/-- The rule for two steps in a row. -/
theorem Agrees.bind {x : Run α} {f : α → Run β} {m : Scriptlet.Machine} {y : Outcome α}
    {next : α → Scriptlet.Machine → Outcome β} (hx : x.Agrees m y)
    (hnext : ∀ v m₁, y = .done v m₁ → (f v).Agrees m₁ (next v m₁)) :
    (x >>= f).Agrees m (y.andThen next) := by
  have hbind : (x >>= f).run.run m.byText = (x.run.run m.byText).bind fun r =>
      ExceptT.bindCont f r.1 r.2 := rfl
  unfold Agrees
  rw [hbind, hx]
  cases y with
  | done v m₁ => exact hnext v m₁ rfl
  | failed e m₁ => rfl
  | starved => rfl

/-- A program that asks for the machine is given it. -/
theorem agrees_get {f : Machine → Run β} {m : Scriptlet.Machine} {y : Outcome β}
    (h : (f m.byText).Agrees m y) : (get >>= f).Agrees m y := h

/-- A program that sets the machine goes on with it. -/
theorem agrees_set {x : Run β} {m m₁ : Scriptlet.Machine} {t : Machine} {y : Outcome β}
    (ht : t = m₁.byText) (h : x.Agrees m₁ y) : (set t >>= fun _ => x).Agrees m y := by
  subst ht
  exact h

/-- A change to the machine that is the same with symbols and without. -/
theorem agrees_modify {x : Run β} {m m₁ : Scriptlet.Machine} {change : Machine → Machine}
    {y : Outcome β} (ht : change m.byText = m₁.byText) (h : x.Agrees m₁ y) :
    (modify change >>= fun _ => x).Agrees m y :=
  agrees_set (m := m) ht h

/-- An operation that gives a value or a fault. -/
theorem agrees_ofExcept (token : Token) (x : Except Fault α) (m : Scriptlet.Machine) :
    (ofExcept token x).Agrees m (.ofExcept token x m) := by
  cases x <;> rfl

/-- A host function, which sees no scopes. -/
theorem agrees_ofNative (op : Native) (args : List Value) (paren : Token)
    (m : Scriptlet.Machine) : (ofNative op args paren).Agrees m
      (.ofExcept paren (op.run args m).1 (op.run args m).2) := by
  obtain ⟨hrun, hscopes⟩ := Machine.run_byText op args m
  unfold ofNative
  refine agrees_get ?_
  rw [hrun]
  refine agrees_set ?_ (agrees_ofExcept paren _ _)
  rw [← hscopes]

/-- Running in another scope and coming back. -/
theorem Agrees.inScope {x : Run α} {m : Scriptlet.Machine} {scope : ScopeId} {y : Outcome α}
    (h : x.Agrees (m.enter scope) y) :
    (x.inScope scope).Agrees m (y.mapMachine (·.enter m.current)) := by
  have hrun : (Run.inScope scope x).run.run m.byText = (x.run.run (m.enter scope).byText).map
      fun r => (r.1, r.2.enter m.current) := rfl
  unfold Agrees
  rw [hrun, h]
  cases y <;> rfl

end ByText.Run

section Agreement

open ByText.Run

variable {K : Symbol → Prop}

/-- A scope for a call, with symbols and without. -/
theorem Machine.byText_bound (hK : TellsApart K) {m : Machine} (h : m.Sound K)
    (closure : ScopeId) {params : List Token} (hparams : ∀ p ∈ params, K p.lexeme)
    (args : List Value) :
    let scope := (m.openScope closure).1
    let opened := (m.openScope closure).2
    { opened.byText with scopes := opened.byText.scopes.defineAll scope params args } =
      { opened with scopes := opened.scopes.defineAll scope params args }.byText := by
  intro scope opened
  have hopened : opened.scopes.Holds K fun _ => True :=
    (h.holds.imp fun _ _ => trivial).openScope (some closure)
  exact congrArg (ByText.Machine.mk · _) (Scopes.byText_defineAll hK hparams hopened scope).symm

mutual

/-- An expression ends by texts as it does by symbols. The names that are looked up are those of the
expression, and the soundness of the machine covers the names of functions that are called. -/
theorem eval_byText (hK : TellsApart K) : ∀ n {e m}, (∀ name ∈ e.names, K name) → m.Sound K →
    (ByText.eval n e).Agrees m (eval n e m)
  | 0, _, _, _, _ => rfl
  | n + 1, e, m, he, hm => by
    -- On the fuel. Only names and assignments look at keys; what the other forms need is that
    -- the machine stays sound from one part to the next.
    have hparts : ∀ part ∈ e.parts, ∀ name ∈ part.names, K name :=
      fun part hpart name hname => he name (Expr.names_parts hpart hname)
    cases e with
    | literal value => exact agrees_pure _ m
    | group inner => exact eval_byText hK n (hparts inner (by simp [Expr.parts])) hm
    | unary op operand =>
        have hoperand := hparts operand (by simp [Expr.parts])
        exact (eval_byText hK n hoperand hm).bind fun v m₁ _ => agrees_ofExcept _ _ _
    | binary left op right =>
        have hleft := hparts left (by simp [Expr.parts])
        have hright := hparts right (by simp [Expr.parts])
        refine (eval_byText hK n hleft hm).bind fun v m₁ hv => ?_
        have hm₁ := (hm.eval hleft hv).1.sound
        exact (eval_byText hK n hright hm₁).bind fun w m₂ _ => agrees_ofExcept _ _ _
    | logical left op right =>
        have hleft := hparts left (by simp [Expr.parts])
        refine (eval_byText hK n hleft hm).bind fun v m₁ hv => ?_
        have hm₁ := (hm.eval hleft hv).1.sound
        split
        · exact agrees_pure _ m₁
        · exact eval_byText hK n (hparts right (by simp [Expr.parts])) hm₁
    | get name =>
        have hget := Machine.get?_byText hK (he name.lexeme (by simp [Expr.names])) hm
        refine agrees_get ?_
        simp only [Token.name, eval]
        rw [hget]
        cases m.get? name.lexeme with
        | some v => exact agrees_pure _ m
        | none => exact agrees_throw _ m
    | set name value =>
        have hvalue := hparts value (by simp [Expr.parts])
        refine (eval_byText hK n hvalue hm).bind fun v m₁ hv => agrees_get ?_
        have hm₁ := (hm.eval hvalue hv).1.sound
        have hname : K name.lexeme := he name.lexeme (by simp [Expr.names])
        simp only [Token.name]
        rw [Machine.owner?_byText hK hname hm₁]
        cases m₁.owner? name.lexeme with
        | some owner =>
            refine agrees_set ?_ (agrees_pure _ _)
            exact (Machine.byText_assignAt hK hname hm₁ owner v).symm
        | none => exact agrees_throw _ m₁
    | call callee paren args =>
        have hcallee := hparts callee (by simp [Expr.parts])
        have hargs : ∀ arg ∈ args, ∀ name ∈ arg.names, K name :=
          fun arg harg => hparts arg (by simp [Expr.parts, harg])
        refine (eval_byText hK n hcallee hm).bind fun v m₁ hv => ?_
        obtain ⟨hlater, hfits⟩ := hm.eval hcallee hv
        refine (evalAll_byText hK n hargs hlater.sound).bind fun vs m₂ hvs => ?_
        obtain ⟨hlater', hfits'⟩ := hlater.sound.evalAll hargs hvs
        cases v with
        | callable f =>
            dsimp only
            split
            · refine agrees_modify (Machine.byText_note m₂ _) ?_
              exact invoke_byText hK n (hfits.mono hlater'.count) hfits' (hlater'.sound.note _)
            · exact agrees_throw _ m₂
        | _ => exact agrees_throw _ m₂

/-- Several expressions end in the same way. -/
theorem evalAll_byText (hK : TellsApart K) : ∀ n {es m},
    (∀ e ∈ es, ∀ name ∈ e.names, K name) → m.Sound K →
    (ByText.evalAll n es).Agrees m (evalAll n es m)
  | 0, _, _, _, _ => rfl
  | n + 1, [], m, _, _ => agrees_pure _ m
  | n + 1, e :: es, m, hes, hm => by
    have he := hes e List.mem_cons_self
    refine (eval_byText hK n he hm).bind fun v m₁ hv => ?_
    have hm₁ := (hm.eval he hv).1.sound
    exact (evalAll_byText hK n (fun e' he' => hes e' (List.mem_cons_of_mem _ he')) hm₁).bind
      fun vs m₂ _ => agrees_pure _ m₂

/-- So does a call. The names in the body are among those that the function brings along. -/
theorem invoke_byText (hK : TellsApart K) : ∀ n {f paren args m}, f.Fits K m.scopes.count →
    (∀ v ∈ args, v.Fits K m.scopes.count) → m.Sound K →
    (ByText.invoke n f paren args).Agrees m (invoke n f paren args m)
  | 0, _, _, _, _, _, _, _ => rfl
  | n + 1, ⟨identity, .native name arity op⟩, paren, args, m, _, _, hm =>
    agrees_ofNative op args paren m
  | n + 1, ⟨identity, .user decl closure⟩, paren, args, m, hf, hargs, hm => by
    refine agrees_get ?_
    rw [Machine.byText_openScope]
    refine agrees_set (Machine.byText_bound hK hm closure hf.2.1 args) ?_
    -- In the scope of the call the machine is the one that `Machine.inside` describes.
    refine (execIn_byText hK n hf.2.2 ?_).bind fun flow m₁ _ => agrees_pure _ m₁
    exact hm.inside hf.1 hf.2.1 hargs

/-- So do statements in another scope. -/
theorem execIn_byText (hK : TellsApart K) : ∀ n {scope body m},
    (∀ s ∈ body, ∀ name ∈ s.names, K name) → (m.enter scope).Sound K →
    (ByText.execIn n scope body).Agrees m (execIn n scope body m)
  | 0, _, _, _, _, _ => rfl
  | n + 1, _, _, _, hbody, hm => (execAll_byText hK n hbody hm).inScope

/-- So do statements in a row. -/
theorem execAll_byText (hK : TellsApart K) : ∀ n {body m},
    (∀ s ∈ body, ∀ name ∈ s.names, K name) → m.Sound K →
    (ByText.execAll n body).Agrees m (execAll n body m)
  | 0, _, _, _, _ => rfl
  | n + 1, [], m, _, _ => agrees_pure _ m
  | n + 1, s :: rest, m, hbody, hm => by
    have hs := hbody s List.mem_cons_self
    refine (exec_byText hK n hs hm).bind fun flow m₁ hflow => ?_
    cases flow with
    | normal =>
        exact execAll_byText hK n (fun s' hs' => hbody s' (List.mem_cons_of_mem _ hs'))
          (hm.exec hs hflow).sound
    | returned v => exact agrees_pure _ m₁

/-- So does a statement. -/
theorem exec_byText (hK : TellsApart K) : ∀ n {s m}, (∀ name ∈ s.names, K name) → m.Sound K →
    (ByText.exec n s).Agrees m (exec n s m)
  | 0, _, _, _, _ => rfl
  | n + 1, s, m, hs, hm => by
    have hexprs : ∀ e ∈ s.exprs, ∀ name ∈ e.names, K name :=
      fun e he name hname => hs name (Stmt.names_exprs he hname)
    have hparts : ∀ part ∈ s.parts, ∀ name ∈ part.names, K name :=
      fun part hpart name hname => hs name (Stmt.names_parts hpart hname)
    cases s with
    | expression value =>
        have hvalue := hexprs value (by simp [Stmt.exprs])
        exact (eval_byText hK n hvalue hm).bind fun _ m₁ _ => agrees_pure _ m₁
    | declare name init =>
        have hinit : ∀ e ∈ init, ∀ name ∈ e.names, K name :=
          fun e he => hexprs e (by simpa [Stmt.exprs] using he)
        refine (evalOptional_byText hK n hinit hm).bind fun v m₁ hv => ?_
        have hm₁ := (hm.evalOptional hinit hv).sound
        refine agrees_modify ?_ (agrees_pure _ _)
        exact (Machine.byText_define hK (hs name.lexeme (by simp [Stmt.names])) hm₁ v).symm
    | block body =>
        refine agrees_get ?_
        dsimp only
        rw [show m.byText.host.current = m.current from rfl, Machine.byText_openScope]
        refine agrees_set rfl ?_
        have hinside : (m.inside m.current [] []).Sound K :=
          hm.inside hm.current (by simp) (by simp)
        refine execIn_byText hK n hparts ?_
        -- A scope that is opened for a block binds nothing yet, so the machine stays sound in it.
        exact hinside
    | branch condition yes no =>
        have hcondition := hexprs condition (by simp [Stmt.exprs])
        refine (eval_byText hK n hcondition hm).bind fun v m₁ hv => ?_
        have hm₁ := (hm.eval hcondition hv).1.sound
        split
        · exact exec_byText hK n (hparts yes (by simp [Stmt.parts])) hm₁
        · cases no with
          | none => exact agrees_pure _ m₁
          | some no => exact exec_byText hK n (hparts no (by simp [Stmt.parts])) hm₁
    | loop condition body =>
        exact repeatWhile_byText hK n (hexprs condition (by simp [Stmt.exprs]))
          (hparts body (by simp [Stmt.parts])) hm
    | function name params body =>
        let noted := m.note (.declaring name.name params.length)
        let made := (noted.makeCallable (.user ⟨name, params, body⟩ m.current)).2
        have hmade : made.Sound K := hm.of_eq rfl rfl rfl
        refine agrees_get (agrees_set ?_ (agrees_pure _ _))
        exact (Machine.byText_define hK (hs name.lexeme (by simp [Stmt.names])) hmade _).symm
    | giveBack word result =>
        have hresult : ∀ e ∈ result, ∀ name ∈ e.names, K name :=
          fun e he => hexprs e (by simpa [Stmt.exprs] using he)
        exact (evalOptional_byText hK n hresult hm).bind fun v m₁ _ => agrees_pure _ m₁

/-- So does an expression that may be missing. -/
theorem evalOptional_byText (hK : TellsApart K) : ∀ n {e m},
    (∀ e' ∈ e, ∀ name ∈ e'.names, K name) → m.Sound K →
    (ByText.evalOptional n e).Agrees m (evalOptional n e m)
  | 0, _, _, _, _ => rfl
  | _ + 1, none, m, _, _ => agrees_pure _ m
  | n + 1, some e, _, he, hm => eval_byText hK n (he e rfl) hm

/-- So do the rounds of a loop. -/
theorem repeatWhile_byText (hK : TellsApart K) : ∀ n {condition body m},
    (∀ name ∈ condition.names, K name) → (∀ name ∈ body.names, K name) → m.Sound K →
    (ByText.repeatWhile n condition body).Agrees m (repeatWhile n condition body m)
  | 0, _, _, _, _, _, _ => rfl
  | n + 1, condition, body, m, hcondition, hbody, hm => by
    refine (eval_byText hK n hcondition hm).bind fun v m₁ hv => ?_
    have hm₁ := (hm.eval hcondition hv).1.sound
    split
    · refine (exec_byText hK n hbody hm₁).bind fun flow m₂ hflow => ?_
      cases flow with
      | normal => exact repeatWhile_byText hK n hcondition hbody (hm₁.exec hbody hflow).sound
      | returned v => exact agrees_pure _ m₂
    · exact agrees_pure _ m₁

end

/-- Whole programs end alike. -/
theorem runProgram_byText (hK : TellsApart K) (n : Nat) {program : Program} {m : Machine}
    (hprogram : ∀ s ∈ program, ∀ name ∈ s.names, K name) (hm : m.Sound K) :
    (ByText.runProgram n program).Agrees m (runProgram n program m) := by
  refine (execAll_byText hK n hprogram hm).bind fun flow m₁ _ => ?_
  cases flow with
  | normal => exact agrees_pure _ m₁
  | returned v => rfl

end Agreement

end Scriptlet
