import Scriptlet.Proofs.Run.Scopes
import Scriptlet.Proofs.Tree.Within

/-!
# `Scriptlet.Proofs.Run.Blame`: which expressions run-time errors blame

A run-time error points at a token. This token stands in an expression that was being
evaluated, and that expression is part of the program, or of the body of a function that was
declared before, perhaps by another program.

`RuntimeError.Blames` says which tokens of an expression an error may point at, and which faults
go with them. What is asked of the machine is that the bodies of all functions it holds are made
of expressions as `K` says (`Machine.From`).

* `runProgram_blames`: a program made of such expressions, run on such a machine, fails only with
  an error that blames one of them.
* `Machine.From.runProgram`: however it ends, it leaves such a machine.
-/

set_option autoImplicit false

namespace Scriptlet

/-! ### Where functions come from -/

/-- The function is one that every session may know, or it was declared with a body of
expressions as `K` says. -/
def Callable.From (K : Expr → Prop) (f : Callable) : Prop :=
  match f.code with
  | .native _ _ op => ∀ function, op ≠ .host function
  | .user decl _ => ∀ s ∈ decl.body, ∀ x : Expr, x.In s → K x

/-- The same for all values. -/
def Value.From (K : Expr → Prop) : Value → Prop
  | .callable f => f.From K
  | _ => True

/-- The same for all values that are bound anywhere. -/
def Machine.From (K : Expr → Prop) (m : Machine) : Prop :=
  m.scopes.Holds (fun _ => True) (Value.From K)

/-- A value made of some expressions is made of more of them as well. -/
theorem Value.From.mono {K K' : Expr → Prop} (hle : ∀ x, K x → K' x) {v : Value}
    (h : v.From K) : v.From K' := by
  cases v with
  | callable f =>
      obtain ⟨identity, code⟩ := f
      cases code with
      | native => exact h
      | user decl closure => exact fun s hs x hx => hle x (h s hs x hx)
  | _ => trivial

namespace Machine.From

variable {K : Expr → Prop} {m : Machine}

/-- So is a machine. -/
theorem mono {K' : Expr → Prop} (hle : ∀ x, K x → K' x) (h : m.From K) : m.From K' :=
  Scopes.Holds.imp h fun _ hv => hv.mono hle

/-- Only the scopes matter. -/
theorem of_eq (h : m.From K) {m₁ : Machine} (hscopes : m₁.scopes = m.scopes) : m₁.From K := by
  unfold Machine.From
  rw [hscopes]
  exact h

/-- A value that is found comes from where all of them come. -/
theorem get? (h : m.From K) {name : Symbol} {v : Value} (hget : m.get? name = some v) :
    v.From K :=
  Scopes.Holds.get? h hget

/-- Declaring a value as it has to be. -/
theorem define (h : m.From K) (name : Symbol) {v : Value} (hv : v.From K) :
    (m.define name v).From K :=
  Scopes.Holds.define h m.current trivial hv

/-- Assigning such a value. -/
theorem assignAt (h : m.From K) (owner : ScopeId) (name : Symbol) {v : Value}
    (hv : v.From K) : (m.assignAt owner name v).From K :=
  Scopes.Holds.assignAt h owner name hv

/-- Going into a new scope with such arguments. -/
theorem inside (h : m.From K) (parent : ScopeId) (params : List Token) {args : List Value}
    (hargs : ∀ v ∈ args, v.From K) : (m.inside parent params args).From K :=
  (Scopes.Holds.openScope h _).defineAll _ (fun _ _ => trivial) hargs

end Machine.From

/-- A machine without any names holds no function. -/
theorem Machine.from_blank (K : Expr → Prop) (input : Reader) (output : Sink)
    (generator : Generator) (clock : Clock) :
    (blank input output generator clock).From K :=
  Scopes.holds_empty.openScope none

/-- Machines hold functions made of expressions as `K` says. -/
def originUpkeep (K : Expr → Prop) : Upkeep where
  Ready m := m.From K
  Change _ m₁ := m₁.From K
  Holds _ f := f.From K
  Evals e := ∀ x : Expr, x.Within e → K x
  Runs s := ∀ x : Expr, x.In s → K x

/-- A value is held if it comes from where values have to come from. -/
theorem originUpkeep_holdsValue {K : Expr → Prop} {m : Machine} {v : Value} :
    (originUpkeep K).HoldsValue m v ↔ v.From K := by
  cases v <;> rfl

/-- The evaluator keeps machines so. Only a declaration makes functions, and their bodies are part
of the statement. -/
theorem originUpkeep_lawful (K : Expr → Prop) : (originUpkeep K).Lawful where
  refl h := h
  trans _ h := h
  ready h := h
  holds _ h := h
  holds_enter h := h
  parts_evals h hpart x hx := h x (.part hpart hx)
  parts_runs h hpart x hx := h x (.part hpart hx)
  exprs_evals h hpart x hx := h x (.expr hpart hx)
  body_runs h hs := h _ hs
  note _ h := h
  native op args h _ := by
    obtain ⟨input, output, generator, clock, hrun⟩ := Native.run_machine op args _
    rw [hrun]
    exact h
  get h hget := h.get? hget
  assign _ h hv _ := h.assignAt _ _ (originUpkeep_holdsValue.1 hv)
  declare _ h hv := h.define _ (originUpkeep_holdsValue.1 hv)
  function hs h := Machine.From.define h _ fun _ hpart x hx => hs x (.part hpart hx)
  block h := h.inside _ _ (by simp)
  call h _ hargs := h.inside _ _ fun v hv => originUpkeep_holdsValue.1 (hargs v hv)
  leave _ h := h

/-! ### Faults -/

/-- The faults that a call answers for: what is called is no function, or one that wants
another number of arguments, or a native function that refuses its arguments or cannot do its
work. -/
def Fault.OfCall : Fault → Prop
  | .arityMismatch expected got => expected ≠ got
  | .notCallable | .conversion _ _ | .invalidArgument _ | .io _ | .clock _ => True
  | _ => False

/-- The error points at a token of the expression, and its fault is one that this token answers
for. -/
inductive RuntimeError.Blames : RuntimeError → Expr → Prop where
  | operand {op : Token} {e : Expr} : op.kind ≠ .mark .bang →
      Blames ⟨op, .operandMustBeNumber⟩ (.unary op e)
  | operands {op : Token} {a b : Expr} :
      op.kind ∉ [.mark .equalEqual, .mark .bangEqual, .mark .plus] →
      Blames ⟨op, .operandsMustBeNumbers⟩ (.binary a op b)
  | sum {op : Token} {a b : Expr} : op.kind = .mark .plus →
      Blames ⟨op, .operandsMustBeNumbersOrStrings⟩ (.binary a op b)
  | get {name : Token} : Blames ⟨name, .undefinedVariable name.name⟩ (.get name)
  | set {name : Token} {e : Expr} : Blames ⟨name, .undefinedVariable name.name⟩ (.set name e)
  | call {paren : Token} {f : Expr} {args : List Expr} {fault : Fault} : fault.OfCall →
      Blames ⟨paren, fault⟩ (.call f paren args)

/-- The error is one that an expression as `K` says can cause. -/
def RuntimeError.At (K : Expr → Prop) (e : RuntimeError) : Prop :=
  ∃ x, K x ∧ e.Blames x

/-- Only a sign in front of something that is no number fails. -/
theorem Operator.unary_error {op : Kind} {v : Value} {fault : Fault}
    (h : unary op v = .error fault) : op ≠ .mark .bang ∧ fault = .operandMustBeNumber := by
  unfold unary at h
  split at h
  · cases h
  · cases h
  case h_3 hbang _ =>
    cases h
    exact ⟨hbang, rfl⟩

/-- Comparison for equality never fails, a sum fails in its own way, and all other operators
between two operands fail alike. -/
theorem Operator.binary_error {op : Kind} {v w : Value} {fault : Fault}
    (h : binary op v w = .error fault) :
    op = .mark .plus ∧ fault = .operandsMustBeNumbersOrStrings ∨
      op ∉ [.mark .equalEqual, .mark .bangEqual, .mark .plus] ∧
        fault = .operandsMustBeNumbers := by
  unfold binary at h
  split at h
  · cases h
  · cases h
  · unfold add at h
    split at h
    · cases h
    · cases h
    · cases h
      exact .inl ⟨rfl, rfl⟩
  -- Of the operators between two operands, three have a rule of their own. They are told apart here
  -- once.
  case h_4 hequal hunequal hplus =>
    split at h
    · cases h
    · cases h
      refine .inr ⟨?_, rfl⟩
      rintro (_ | ⟨_, _ | ⟨_, _ | ⟨_, h⟩⟩⟩)
      · exact hequal rfl
      · exact hunequal rfl
      · exact hplus rfl
      · cases h

/-- A native function that every session may know fails with a fault of its call. -/
theorem Native.run_error {op : Native} (hop : ∀ function, op ≠ .host function) {args : List Value}
    {m : Machine} {fault : Fault} (h : (op.run args m).1 = .error fault) : fault.OfCall := by
  -- A host function is left out, since it may reply with any fault.
  cases op with
  | clock =>
      simp only [run, runClock] at h
      split at h <;> cases h
      trivial
  | readLine =>
      simp only [run, runReadLine] at h
      split at h <;> cases h
      trivial
  | randomRangeRounded =>
      simp only [run, runRandomRangeRounded, runRandomRange] at h
      split at h
      · split at h
        · cases h
          trivial
        · split at h <;> cases h
          trivial
      · cases h
        trivial
  | toDouble =>
      simp only [run, convertToDouble] at h
      split at h
      · cases h
      · split at h <;> cases h
        trivial
      · cases h
        trivial
  | toText => cases h
  | print | printLine =>
      simp only [run, runWrite] at h
      split at h <;> cases h
      trivial
  | host function => exact absurd rfl (hop function)

/-! ### Runs -/

/-- If the outcome is an error, then one as `P` says. -/
def Outcome.FailsAs {α : Type} (P : RuntimeError → Prop) : Outcome α → Prop
  | .failed error _ => P error
  | _ => True

/-- An operation fails as its fault says. -/
theorem Outcome.failsAs_ofExcept {α : Type} {P : RuntimeError → Prop} {token : Token}
    {x : Except Fault α} {m : Machine} (h : ∀ fault, x = .error fault → P ⟨token, fault⟩) :
    (Outcome.ofExcept token x m).FailsAs P := by
  cases x with
  | ok v => trivial
  | error fault => exact h fault rfl

/-- The rule for two steps in a row, of which the second one asks for nothing. -/
theorem Outcome.failsAs_andThen {α β : Type} {P : RuntimeError → Prop} {x : Outcome α}
    {next : α → Machine → Outcome β} (hx : x.FailsAs P) (hnext : ∀ v m, (next v m).FailsAs P) :
    (x.andThen next).FailsAs P := by
  cases x with
  | done v m => exact hnext v m
  | failed error m => exact hx
  | starved => trivial

/-- The rule for two steps in a row: what the first one keeps, the second one may use. -/
theorem Upkeep.failsAs_andThen {α β : Type} {u : Upkeep} (hu : u.Lawful)
    {P : RuntimeError → Prop} {Q : Machine → α → Prop} {m : Machine} {x : Outcome α}
    {next : α → Machine → Outcome β} (hkeeps : u.Keeps Q m x) (hx : x.FailsAs P)
    (hnext : ∀ v m₁, u.Ready m₁ → Q m₁ v → (next v m₁).FailsAs P) :
    (x.andThen next).FailsAs P := by
  cases x with
  | done v m₁ => exact hnext v m₁ (hu.ready hkeeps.1) hkeeps.2
  | failed error m₁ => exact hx
  | starved => trivial

section Blames

variable {K : Expr → Prop}

mutual

/-- If the evaluation of an expression fails, the error blames an expression as `K` says: this one,
one inside of it, or one in the body of a function that is called. -/
theorem eval_blames : ∀ n {e m}, (∀ x : Expr, x.Within e → K x) → m.From K →
    (eval n e m).FailsAs (RuntimeError.At K)
  | 0, _, _, _, _ => trivial
  | n + 1, e, m, he, hm => by
    -- On the fuel. An error comes from a part, or it blames the expression itself. That the
    -- machine between two parts is still as `K` says is what `originUpkeep` is for.
    have hu := originUpkeep_lawful K
    have hparts : ∀ part ∈ e.parts, ∀ x : Expr, x.Within part → K x :=
      fun part hpart x hx => he x (.part hpart hx)
    have hself : K e := he e .self
    cases e with
    | literal value => trivial
    | group inner => exact eval_blames n (hparts inner (by simp [Expr.parts])) hm
    | unary op operand =>
        have hoperand := hparts operand (by simp [Expr.parts])
        refine Outcome.failsAs_andThen (eval_blames n hoperand hm) fun v m₁ =>
          Outcome.failsAs_ofExcept fun fault h => ?_
        obtain ⟨hop, rfl⟩ := Operator.unary_error h
        exact ⟨_, hself, .operand hop⟩
    | binary left op right =>
        have hleft := hparts left (by simp [Expr.parts])
        have hright := hparts right (by simp [Expr.parts])
        refine Upkeep.failsAs_andThen hu (Upkeep.eval_keeps hu n hleft hm)
          (eval_blames n hleft hm) fun v m₁ hm₁ _ => ?_
        refine Outcome.failsAs_andThen (eval_blames n hright hm₁) fun w m₂ =>
          Outcome.failsAs_ofExcept fun fault h => ?_
        obtain ⟨hop, rfl⟩ | ⟨hop, rfl⟩ := Operator.binary_error h
        · exact ⟨_, hself, .sum hop⟩
        · exact ⟨_, hself, .operands hop⟩
    | logical left op right =>
        have hleft := hparts left (by simp [Expr.parts])
        refine Upkeep.failsAs_andThen hu (Upkeep.eval_keeps hu n hleft hm)
          (eval_blames n hleft hm) fun v m₁ hm₁ _ => ?_
        split
        · trivial
        · exact eval_blames n (hparts right (by simp [Expr.parts])) hm₁
    | get name =>
        simp only [eval]
        split
        · trivial
        · exact ⟨_, hself, .get⟩
    | set name value =>
        have hvalue := hparts value (by simp [Expr.parts])
        refine Outcome.failsAs_andThen (eval_blames n hvalue hm) fun v m₁ => ?_
        split
        · trivial
        · exact ⟨_, hself, .set⟩
    | call callee paren args =>
        have hcallee := hparts callee (by simp [Expr.parts])
        have hargs : ∀ arg ∈ args, ∀ x : Expr, x.Within arg → K x :=
          fun arg harg => hparts arg (by simp [Expr.parts, harg])
        refine Upkeep.failsAs_andThen hu (Upkeep.eval_keeps hu n hcallee hm)
          (eval_blames n hcallee hm) fun v m₁ hm₁ hv => ?_
        refine Upkeep.failsAs_andThen hu (Upkeep.evalAll_keeps hu n hargs hm₁)
          (evalAll_blames n hargs hm₁) fun vs m₂ hm₂ hvs => ?_
        cases v with
        | callable f =>
            dsimp only
            -- A wrong number of arguments is noticed before the function is entered.
            split
            · exact invoke_blames n hself hv
                (fun w hw => originUpkeep_holdsValue.1 (hvs w hw)) hm₂
            case isFalse hlength => exact ⟨_, hself, .call (Ne.symm hlength)⟩
        | _ => exact ⟨_, hself, .call trivial⟩

/-- Several expressions, of which the first that fails decides. -/
theorem evalAll_blames : ∀ n {es m}, (∀ e ∈ es, ∀ x : Expr, x.Within e → K x) → m.From K →
    (evalAll n es m).FailsAs (RuntimeError.At K)
  | 0, _, _, _, _ => trivial
  | n + 1, [], m, _, _ => trivial
  | n + 1, e :: es, m, hes, hm => by
    have hu := originUpkeep_lawful K
    have hrest : ∀ e' ∈ es, ∀ x : Expr, x.Within e' → K x :=
      fun e' he' => hes e' (List.mem_cons_of_mem _ he')
    have he := hes e List.mem_cons_self
    refine Upkeep.failsAs_andThen hu (Upkeep.eval_keeps hu n he hm) (eval_blames n he hm)
      fun v m₁ hm₁ _ => ?_
    exact Outcome.failsAs_andThen (evalAll_blames n hrest hm₁) fun _ _ => trivial

/-- The faults of a native function are faults of the call, and those of a declared one stand
in its body. -/
theorem invoke_blames : ∀ n {f paren args m callee arguments},
    K (.call callee paren arguments) → f.From K → (∀ v ∈ args, v.From K) → m.From K →
    (invoke n f paren args m).FailsAs (RuntimeError.At K)
  | 0, _, _, _, _, _, _, _, _, _, _ => trivial
  | n + 1, ⟨identity, .native name arity op⟩, paren, args, m, callee, arguments, hcall, hf,
      _, hm =>
    Outcome.failsAs_ofExcept fun fault h => ⟨_, hcall, .call (Native.run_error hf h)⟩
  | n + 1, ⟨identity, .user decl closure⟩, paren, args, m, callee, arguments, _, hf, hargs,
      hm => by
    have hinside := hm.inside closure decl.params hargs
    -- The call is not to blame any more: its body is, which may be of another program.
    refine Outcome.failsAs_andThen ?_ fun _ _ => trivial
    exact execIn_blames n hf hinside

/-- A body in another scope. -/
theorem execIn_blames : ∀ n {scope body m}, (∀ s ∈ body, ∀ x : Expr, x.In s → K x) →
    m.From K → (execIn n scope body m).FailsAs (RuntimeError.At K)
  | 0, _, _, _, _, _ => trivial
  | n + 1, scope, body, m, hbody, hm => by
    rw [execIn_succ]
    have hrun := execAll_blames n hbody (m := m.enter scope) hm
    cases hx : execAll n body (m.enter scope) with
    | done flow m₁ => trivial
    | failed error m₁ =>
        rw [hx] at hrun
        exact hrun
    | starved => trivial

/-- Statements in a row, of which the first that fails decides. -/
theorem execAll_blames : ∀ n {body m}, (∀ s ∈ body, ∀ x : Expr, x.In s → K x) →
    m.From K → (execAll n body m).FailsAs (RuntimeError.At K)
  | 0, _, _, _, _ => trivial
  | n + 1, [], m, _, _ => trivial
  | n + 1, s :: rest, m, hbody, hm => by
    have hu := originUpkeep_lawful K
    have hs := hbody s List.mem_cons_self
    refine Upkeep.failsAs_andThen hu (Upkeep.exec_keeps hu n hs hm) (exec_blames n hs hm)
      fun flow m₁ hm₁ _ => ?_
    cases flow with
    | normal => exact execAll_blames n (fun s' hs' => hbody s' (List.mem_cons_of_mem _ hs')) hm₁
    | returned v => trivial

/-- If a statement fails, an expression in it is blamed, or one in the body of a function that is
called. -/
theorem exec_blames : ∀ n {s m}, (∀ x : Expr, x.In s → K x) → m.From K →
    (exec n s m).FailsAs (RuntimeError.At K)
  | 0, _, _, _, _ => trivial
  | n + 1, s, m, hs, hm => by
    have hu := originUpkeep_lawful K
    have hexprs : ∀ e ∈ s.exprs, ∀ x : Expr, x.Within e → K x :=
      fun e he x hx => hs x (.expr he hx)
    have hparts : ∀ part ∈ s.parts, ∀ x : Expr, x.In part → K x :=
      fun part hpart x hx => hs x (.part hpart hx)
    cases s with
    | expression value =>
        have hvalue := hexprs value (by simp [Stmt.exprs])
        exact Outcome.failsAs_andThen (eval_blames n hvalue hm) fun _ _ => trivial
    | declare name value | giveBack name value =>
        have hvalue : ∀ e ∈ value, ∀ x : Expr, x.Within e → K x :=
          fun e he => hexprs e (by simpa [Stmt.exprs] using he)
        exact Outcome.failsAs_andThen (evalOptional_blames n hvalue hm) fun _ _ => trivial
    | block body => exact execIn_blames n hparts (hu.block hm)
    | branch condition yes no =>
        have hcondition := hexprs condition (by simp [Stmt.exprs])
        refine Upkeep.failsAs_andThen hu (Upkeep.eval_keeps hu n hcondition hm)
          (eval_blames n hcondition hm) fun v m₁ hm₁ _ => ?_
        split
        · exact exec_blames n (hparts yes (by simp [Stmt.parts])) hm₁
        · cases no with
          | none => trivial
          | some no => exact exec_blames n (hparts no (by simp [Stmt.parts])) hm₁
    | loop condition body =>
        exact repeatWhile_blames n (hexprs condition (by simp [Stmt.exprs]))
          (hparts body (by simp [Stmt.parts])) hm
    | function name params body => trivial

/-- A value that may be missing. -/
theorem evalOptional_blames : ∀ n {e m}, (∀ e' ∈ e, ∀ x : Expr, x.Within e' → K x) →
    m.From K → (evalOptional n e m).FailsAs (RuntimeError.At K)
  | 0, _, _, _, _ => trivial
  | _ + 1, none, _, _, _ => trivial
  | n + 1, some e, _, he, hm => eval_blames n (he e rfl) hm

/-- Rounds of a loop. A later round fails as the first one may. -/
theorem repeatWhile_blames : ∀ n {condition body m},
    (∀ x : Expr, x.Within condition → K x) → (∀ x : Expr, x.In body → K x) → m.From K →
    (repeatWhile n condition body m).FailsAs (RuntimeError.At K)
  | 0, _, _, _, _, _, _ => trivial
  | n + 1, condition, body, m, hcondition, hbody, hm => by
    have hu := originUpkeep_lawful K
    refine Upkeep.failsAs_andThen hu (Upkeep.eval_keeps hu n hcondition hm)
      (eval_blames n hcondition hm) fun v m₁ hm₁ _ => ?_
    split
    · refine Upkeep.failsAs_andThen hu (Upkeep.exec_keeps hu n hbody hm₁)
        (exec_blames n hbody hm₁) fun flow m₂ hm₂ _ => ?_
      cases flow with
      | normal => exact repeatWhile_blames n hcondition hbody hm₂
      | returned v => trivial
    · trivial

end

/-- A program blames its own expressions, and those of functions that were there before. -/
theorem runProgram_blames (n : Nat) {program : Program} {m : Machine}
    (hprogram : ∀ s ∈ program, ∀ x : Expr, x.In s → K x) (hm : m.From K) :
    (runProgram n program m).FailsAs (RuntimeError.At K) := by
  refine Outcome.failsAs_andThen (execAll_blames n hprogram hm) fun flow m₁ => ?_
  cases flow <;> trivial

/-- Functions that a program leaves behind are made of its own expressions, and of those that
were there before. -/
theorem Machine.From.runProgram (n : Nat) {program : Program} {m : Machine}
    (hprogram : ∀ s ∈ program, ∀ x : Expr, x.In s → K x) (hm : m.From K) :
    (runProgram n program m).Meets (fun _ m₁ => m₁.From K) (fun m₁ => m₁.From K) := by
  have hkeeps := Upkeep.runProgram_keeps (originUpkeep_lawful K) n hprogram hm
  cases hrun : Scriptlet.runProgram n program m with
  | done _ m₁ =>
      rw [hrun] at hkeeps
      exact hkeeps.1
  | failed error m₁ =>
      rw [hrun] at hkeeps
      exact hkeeps
  | starved => trivial

end Blames

end Scriptlet
