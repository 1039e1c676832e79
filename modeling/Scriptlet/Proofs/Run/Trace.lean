import Scriptlet.Proofs.Run.Chain
import Scriptlet.Proofs.Run.Coupling
import Scriptlet.Proofs.Run.Place

/-!
# `Scriptlet.Proofs.Run.Trace`: which functions are called, and what they change

The functions that a run calls, in the order of the calls (`evalCalls`, `execCalls` and their
like), and what the run may change because of them.

`Machine.Traced` says what a run leaves behind. It notes down each call, so the journal agrees
with the trace. It opens scopes but moves none. And a scope that was there before is changed only
if it is on the chain of the place where the run started, or on the chain of a scope that some
called function remembers. The chains are those of the machine at the end; old scopes had the
same chains before.

* `eval_traced`, `exec_traced`, `invoke_traced` and the lemmas between them: all runs are so. A
  call starts in the scope that the function remembers and not where the caller is.
-/

set_option autoImplicit false

namespace Scriptlet

/-! ### The trace -/

/-- What is called in a second step, if there is one. -/
def Outcome.thenCalls {α : Type} (x : Outcome α) (next : α → Machine → List Callable) :
    List Callable :=
  match x with
  | .done result m => next result m
  | .failed _ _ => []
  | .starved => []

mutual

/-- The functions that are called while an expression is evaluated. -/
def evalCalls : Nat → Expr → Machine → List Callable
  | 0, _, _ => []
  | n + 1, e, m =>
    match e with
    | .literal _ => []
    | .group inner => evalCalls n inner m
    | .unary _ operand => evalCalls n operand m
    | .binary left _ right =>
      evalCalls n left m ++ (eval n left m).thenCalls fun _ m => evalCalls n right m
    | .logical left op right =>
      evalCalls n left m ++ (eval n left m).thenCalls fun v m =>
        if Operator.decides op.kind v then [] else evalCalls n right m
    | .get _ => []
    | .set _ value => evalCalls n value m
    | .call callee _ args =>
      evalCalls n callee m ++ (eval n callee m).thenCalls fun v m =>
        evalAllCalls n args m ++ (evalAll n args m).thenCalls fun vs m =>
          match v with
          | .callable f =>
            if vs.length = f.arity then
              f :: invokeCalls n f vs (m.note (.calling f.text vs.length))
            else []
          | _ => []

/-- The functions that are called while several expressions are evaluated. -/
def evalAllCalls : Nat → List Expr → Machine → List Callable
  | 0, _, _ => []
  | _ + 1, [], _ => []
  | n + 1, e :: es, m =>
    evalCalls n e m ++ (eval n e m).thenCalls fun _ m => evalAllCalls n es m

/-- The functions that a function calls before it comes back. -/
def invokeCalls : Nat → Callable → List Value → Machine → List Callable
  | 0, _, _, _ => []
  | n + 1, f, args, m =>
    match f.code with
    | .native _ _ _ => []
    | .user decl closure =>
      execInCalls n m.scopes.count decl.body (m.opened closure decl.params args)

/-- The functions that are called by statements in another scope. -/
def execInCalls : Nat → ScopeId → List Stmt → Machine → List Callable
  | 0, _, _, _ => []
  | n + 1, scope, body, m => execAllCalls n body (m.enter scope)

/-- The functions that are called by statements one after the other. -/
def execAllCalls : Nat → List Stmt → Machine → List Callable
  | 0, _, _ => []
  | _ + 1, [], _ => []
  | n + 1, s :: rest, m =>
    execCalls n s m ++ (exec n s m).thenCalls fun flow m =>
      match flow with
      | .normal => execAllCalls n rest m
      | .returned _ => []

/-- The functions that are called by a statement. -/
def execCalls : Nat → Stmt → Machine → List Callable
  | 0, _, _ => []
  | n + 1, s, m =>
    match s with
    | .expression value => evalCalls n value m
    | .declare _ init => evalOptionalCalls n init m
    | .block body => execInCalls n m.scopes.count body (m.opened m.current [] [])
    | .branch condition yes no =>
      evalCalls n condition m ++ (eval n condition m).thenCalls fun v m =>
        if v.isTruthy then execCalls n yes m
        else
          match no with
          | some s => execCalls n s m
          | none => []
    | .loop condition body => repeatWhileCalls n condition body m
    | .function _ _ _ => []
    | .giveBack _ result => evalOptionalCalls n result m

/-- The functions that are called while an expression is evaluated, if there is one. -/
def evalOptionalCalls : Nat → Option Expr → Machine → List Callable
  | 0, _, _ => []
  | _ + 1, none, _ => []
  | n + 1, some e, m => evalCalls n e m

/-- The functions that are called in the rounds of a loop. -/
def repeatWhileCalls : Nat → Expr → Stmt → Machine → List Callable
  | 0, _, _, _ => []
  | n + 1, condition, body, m =>
    evalCalls n condition m ++ (eval n condition m).thenCalls fun v m =>
      if v.isTruthy then
        execCalls n body m ++ (exec n body m).thenCalls fun flow m =>
          match flow with
          | .normal => repeatWhileCalls n condition body m
          | .returned _ => []
      else []

end

/-! ### The journal -/

/-- The function and the number of arguments, if the record is about a call. -/
def Record.calling? : Record → Option (String × Nat)
  | .calling function arguments => some (function, arguments)
  | _ => none

/-- The calls that a machine has noted down. -/
def Machine.callings (m : Machine) : List (String × Nat) :=
  m.journal.toList.filterMap Record.calling?

/-- A note adds one call to those noted down, if it is about a call. -/
theorem Machine.callings_note (m : Machine) (record : Record) :
    (m.note record).callings = m.callings ++ record.calling?.toList := by
  simp only [callings, note, Array.toList_push, List.filterMap_append]
  cases hrecord : record.calling? <;> simp [hrecord]

/-! ### What a run leaves behind -/

/-- What a run leaves behind that started at the scope `start` and made these calls. -/
structure Machine.Traced (start : Option ScopeId) (calls : List Callable) (m m₁ : Machine) :
    Prop where
  current : m₁.current = m.current
  grows : m.scopes.Grows m₁.scopes
  noted : m₁.callings = m.callings ++ calls.map fun f => (f.text, f.arity)
  changed {i : ScopeId} : i < m.scopes.count → m₁.scopes.at? i ≠ m.scopes.at? i →
    (∃ c ∈ start, m₁.scopes.OnChain c i) ∨
      ∃ f ∈ calls, ∃ c ∈ f.closure?, m₁.scopes.OnChain c i

namespace Machine.Traced

variable {start : Option ScopeId} {calls calls' : List Callable} {m m₁ m₂ : Machine}

/-- Nothing that is seen of the scopes is changed, and no call is noted down. -/
theorem of_eq (hscopes : m₁.scopes = m.scopes) (hcurrent : m₁.current = m.current)
    (hjournal : m₁.callings = m.callings) : m.Traced start [] m₁ where
  current := hcurrent
  grows := hscopes ▸ .refl _
  noted := by simp [hjournal]
  changed := fun _ hne => absurd (by rw [hscopes]) hne

/-- A run that changes nothing and calls nothing. -/
theorem refl (m : Machine) : m.Traced start [] m := of_eq rfl rfl rfl

/-- Two runs in a row. -/
theorem trans (h : m.Traced start calls m₁) (h' : m₁.Traced start calls' m₂) :
    m.Traced start (calls ++ calls') m₂ where
  current := h'.current.trans h.current
  grows := h.grows.trans h'.grows
  noted := by rw [h'.noted, h.noted, List.map_append, List.append_assoc]
  changed := by
    intro i hi hne
    by_cases hfirst : m₁.scopes.at? i = m.scopes.at? i
    · -- The second run changed the scope.
      rw [← hfirst] at hne
      refine (h'.changed (Nat.lt_of_lt_of_le hi h.grows.count) hne).imp_right ?_
      rintro ⟨f, hf, hchain⟩
      exact ⟨f, List.mem_append_right _ hf, hchain⟩
    · -- The first run did. Chains only grow afterwards.
      rcases h.changed hi hfirst with ⟨c, hc, hchain⟩ | ⟨f, hf, c, hc, hchain⟩
      · exact .inl ⟨c, hc, h'.grows.onChain hchain⟩
      · exact .inr ⟨f, List.mem_append_left _ hf, c, hc, h'.grows.onChain hchain⟩

/-- A host function calls no function of the language and touches no scope. -/
theorem native (op : Native) (args : List Value) (m : Machine) :
    m.Traced start [] (op.run args m).2 := by
  obtain ⟨input, output, generator, clock, hrun⟩ := Native.run_machine op args m
  rw [hrun]
  exact of_eq rfl rfl rfl

/-- Only a scope on the chain of the current one was changed. -/
theorem modify {f : Scope → Scope} (hf : ∀ scope, (f scope).parent = scope.parent)
    {owner : ScopeId} (howner : m.scopes.OnChain m.current owner) :
    m.Traced (some m.current) [] { m with scopes := ⟨m.scopes.cells.modify owner f⟩ } where
  current := rfl
  grows := Scopes.grows_modify hf owner
  noted := by
    show m.callings = _
    simp
  changed := by
    intro i _ hne
    refine .inl ⟨m.current, rfl, (Scopes.grows_modify hf owner).onChain ?_⟩
    -- The chain is that of the machine after the change, and a change of one scope moves none.
    by_cases hi : i = owner
    · exact hi ▸ howner
    · refine absurd ?_ hne
      show (Scopes.mk (m.scopes.cells.modify owner f)).at? i = _
      rw [Scopes.at?_modify, if_neg hi]

/-- A definition changes the current scope. -/
theorem define (m : Machine) (name : Symbol) (v : Value) :
    m.Traced (some m.current) [] (m.define name v) :=
  modify (fun scope => scope.parent_define name v) .refl

/-- An assignment changes the scope in which the name was found. It is on the chain of the current
one. -/
theorem assignAt {name : Symbol} {owner : ScopeId} (howner : m.owner? name = some owner)
    (v : Value) : m.Traced (some m.current) [] (m.assignAt owner name v) :=
  modify (f := fun scope => scope.assign name v) (fun _ => rfl)
    (Scopes.onChain_of_resolve howner)

/-- A call is noted down, and then runs from the scope that the function remembers. -/
theorem call {f : Callable} {count : Nat} (hcount : count = f.arity)
    (h : (m.note (.calling f.text count)).Traced f.closure? calls m₁) :
    m.Traced start (f :: calls) m₁ where
  current := h.current
  grows := h.grows
  noted := by
    rw [h.noted, callings_note, hcount, List.append_assoc]
    rfl
  changed := by
    intro i hi hne
    rcases h.changed hi hne with ⟨c, hc, hchain⟩ | ⟨g, hg, hchain⟩
    · exact .inr ⟨f, List.mem_cons_self, c, hc, hchain⟩
    · exact .inr ⟨g, List.mem_cons_of_mem _ hg, hchain⟩

/-- The way back from a new scope. What was changed from there on was changed through the scope
around it. -/
theorem leave {parent : ScopeId} {params : List Token} {args : List Value}
    (h : (m.inside parent params args).Traced (some m.scopes.count) calls m₁) :
    m.Traced (some parent) calls (m₁.enter m.current) := by
  have hopened : (m.scopes.openScope (some parent)).2.Grows
      (m.inside parent params args).scopes := Scopes.grows_defineAll _ _ _
  have hinside := m.grows_inside parent params args
  constructor
  · rfl
  · exact hinside.trans h.grows
  · exact h.noted
  · intro i hi hne
    have hparent : m₁.scopes.parent? m.scopes.count = some parent := by
      have hlt : m.scopes.count < (m.scopes.openScope (some parent)).2.count := by simp
      rw [(hopened.trans h.grows).parent hlt, Scopes.parent?]
      simp [Scopes.at?_openScope]
    have hold := Machine.at?_inside hi parent params args
    have hlt : i < (m.inside parent params args).scopes.count :=
      Nat.lt_of_lt_of_le hi hinside.count
    rcases h.changed hlt (hold ▸ hne) with ⟨c, hc, hchain⟩ | hcalled
    · cases hc
      -- The scope is older than the new one, so the chain goes through the parent.
      rcases Relation.ReflTransGen.cases_head hchain with heq | ⟨p, hp, hchain⟩
      · exact absurd heq.symm (Nat.ne_of_lt hi)
      · cases Option.some.inj (hparent.symm.trans hp)
        exact .inl ⟨parent, rfl, hchain⟩
    · exact .inr hcalled

end Machine.Traced

/-! ### Outcomes -/

/-- However the run ends, this is what it leaves behind. -/
def Outcome.Traced {α : Type} (start : Option ScopeId) (calls : List Callable) (m : Machine)
    (x : Outcome α) : Prop :=
  ∀ m₁ ∈ x.machine?, m.Traced start calls m₁

namespace Outcome

variable {α β : Type} {start : Option ScopeId} {calls : List Callable} {m m₁ : Machine}

/-- A run that is done leaves what its machine shows. -/
theorem traced_done {v : α} (h : m.Traced start calls m₁) :
    Outcome.Traced start calls m (.done v m₁) := by
  rintro _ ⟨⟩
  exact h

/-- So does a run that fails. -/
theorem traced_failed {e : RuntimeError} (h : m.Traced start calls m₁) :
    (Outcome.failed e m₁ : Outcome α).Traced start calls m := by
  rintro _ ⟨⟩
  exact h

/-- A run without steps enough leaves nothing to be said. -/
theorem traced_starved : (Outcome.starved : Outcome α).Traced start calls m := by
  rintro _ ⟨⟩

/-- An operation that gives a value or a fault calls nothing. -/
theorem traced_ofExcept (token : Token) (x : Except Fault α) (h : m.Traced start calls m₁) :
    (Outcome.ofExcept token x m₁).Traced start calls m := by
  cases x with
  | ok v => exact traced_done h
  | error fault => exact traced_failed h

/-- The result of a run may be changed into another one. -/
theorem Traced.result {x : Outcome α} (hx : x.Traced start calls m) (f : α → β) :
    (x.andThen fun v m => .done (f v) m).Traced start calls m := by
  cases x with
  | done v m₁ => exact traced_done (hx m₁ rfl)
  | failed e m₁ => exact traced_failed (hx m₁ rfl)
  | starved => exact traced_starved

/-- The way back from a new scope, however the run in it ends. -/
theorem Traced.leave {parent : ScopeId} {params : List Token} {args : List Value}
    {x : Outcome α}
    (hx : x.Traced (some m.scopes.count) calls (m.inside parent params args)) :
    (x.mapMachine (·.enter m.current)).Traced (some parent) calls m := by
  cases x with
  | done v m₁ => exact traced_done (hx m₁ rfl).leave
  | failed e m₁ => exact traced_failed (hx m₁ rfl).leave
  | starved => exact traced_starved

/-- The rule for two steps in a row. -/
theorem traced_andThen {x : Outcome α} {next : α → Machine → Outcome β}
    {nextCalls : α → Machine → List Callable} (hx : x.Traced (some m.current) calls m)
    (hnext : ∀ v m₁, (next v m₁).Traced (some m₁.current) (nextCalls v m₁) m₁) :
    (x.andThen next).Traced (some m.current) (calls ++ x.thenCalls nextCalls) m := by
  cases x with
  | done v m₁ =>
      have hfirst := hx m₁ rfl
      intro m₂ hm₂
      have hsecond := hnext v m₁ m₂ hm₂
      rw [hfirst.current] at hsecond
      exact hfirst.trans hsecond
  | failed e m₁ =>
      have hfirst := hx m₁ rfl
      exact traced_failed (by simpa [thenCalls] using hfirst)
  | starved => exact traced_starved

/-- The same for a second step that calls nothing. -/
theorem traced_andThen_silent {x : Outcome α} {next : α → Machine → Outcome β}
    (hx : x.Traced (some m.current) calls m)
    (hnext : ∀ v m₁, (next v m₁).Traced (some m₁.current) [] m₁) :
    (x.andThen next).Traced (some m.current) calls m := by
  have hnone : x.thenCalls (fun _ _ => []) = [] := by cases x <;> rfl
  rw [← List.append_nil calls, ← hnone]
  exact traced_andThen hx hnext

end Outcome

/-! ### The evaluator -/

open Outcome

mutual

/-- What the evaluation of an expression leaves behind. Each function that is called runs from the
scope that it remembers, and everything else from the current one. -/
theorem eval_traced : ∀ n e m, (eval n e m).Traced (some m.current) (evalCalls n e m) m
  | 0, _, _ => traced_starved
  | n + 1, e, m => by
    cases e with
    | literal value => exact traced_done (.refl m)
    | group inner => exact eval_traced n inner m
    | unary op operand =>
        exact traced_andThen_silent (eval_traced n operand m) fun v m₁ =>
          traced_ofExcept _ _ (.refl m₁)
    | binary left op right =>
        refine traced_andThen (eval_traced n left m) fun v m₁ => ?_
        exact traced_andThen_silent (eval_traced n right m₁) fun w m₂ =>
          traced_ofExcept _ _ (.refl m₂)
    | logical left op right =>
        refine traced_andThen (eval_traced n left m) fun v m₁ => ?_
        split
        · exact traced_done (.refl m₁)
        · exact eval_traced n right m₁
    | get name =>
        simp only [eval, evalCalls]
        split
        · exact traced_done (.refl m)
        · exact traced_failed (.refl m)
    | set name value =>
        refine traced_andThen_silent (eval_traced n value m) fun v m₁ => ?_
        split
        case h_1 owner howner => exact traced_done (.assignAt howner v)
        case h_2 => exact traced_failed (.refl m₁)
    | call callee paren args =>
        refine traced_andThen (eval_traced n callee m) fun v m₁ => ?_
        refine traced_andThen (evalAll_traced n args m₁) fun vs m₂ => ?_
        cases v with
        | callable f =>
            dsimp only
            split
            case isTrue hcount =>
              exact fun m₃ hm₃ => .call hcount (invoke_traced n f paren vs _ m₃ hm₃)
            case isFalse => exact traced_failed (.refl m₂)
        | nil | bool | number | string => exact traced_failed (.refl m₂)

/-- Several expressions, from left to right. -/
theorem evalAll_traced : ∀ n es m,
    (evalAll n es m).Traced (some m.current) (evalAllCalls n es m) m
  | 0, _, _ => traced_starved
  | n + 1, [], m => traced_done (.refl m)
  | n + 1, e :: es, m => by
    refine traced_andThen (eval_traced n e m) fun v m₁ => ?_
    exact traced_andThen_silent (evalAll_traced n es m₁) fun vs m₂ => traced_done (.refl m₂)

/-- A call changes scopes on the chain of the scope that the function remembers. A host function
remembers none. -/
theorem invoke_traced : ∀ n f paren args m,
    (invoke n f paren args m).Traced f.closure? (invokeCalls n f args m) m
  | 0, _, _, _, _ => traced_starved
  | _ + 1, ⟨_, .native _ _ op⟩, paren, args, m => traced_ofExcept paren _ (.native op args m)
  | n + 1, ⟨_, .user decl closure⟩, _, args, m =>
    (execIn_traced n closure decl.params args decl.body m).result Flow.result

/-- A body in a new scope changes old ones through the scope around it only. -/
theorem execIn_traced : ∀ n parent params args body (m : Machine),
    (execIn n m.scopes.count body (m.opened parent params args)).Traced (some parent)
      (execInCalls n m.scopes.count body (m.opened parent params args)) m
  | 0, _, _, _, _, _ => traced_starved
  | n + 1, parent, params, args, body, m => by
    rw [Machine.execIn_opened]
    exact (execAll_traced n body (m.inside parent params args)).leave

/-- Statements in a row, up to the first one that does not end normally. -/
theorem execAll_traced : ∀ n body m,
    (execAll n body m).Traced (some m.current) (execAllCalls n body m) m
  | 0, _, _ => traced_starved
  | n + 1, [], m => traced_done (.refl m)
  | n + 1, s :: rest, m => by
    refine traced_andThen (exec_traced n s m) fun flow m₁ => ?_
    cases flow with
    | normal => exact execAll_traced n rest m₁
    | returned v => exact traced_done (.refl m₁)

/-- What a statement leaves behind. -/
theorem exec_traced : ∀ n s m, (exec n s m).Traced (some m.current) (execCalls n s m) m
  | 0, _, _ => traced_starved
  | n + 1, s, m => by
    cases s with
    | expression value =>
        exact traced_andThen_silent (eval_traced n value m) fun v m₁ => traced_done (.refl m₁)
    | declare name init =>
        exact traced_andThen_silent (evalOptional_traced n init m) fun v m₁ =>
          traced_done (.define m₁ name.lexeme v)
    | block body => exact execIn_traced n m.current [] [] body m
    | branch condition yes no =>
        refine traced_andThen (eval_traced n condition m) fun v m₁ => ?_
        split
        · exact exec_traced n yes m₁
        · cases no with
          | none => exact traced_done (.refl m₁)
          | some no => exact exec_traced n no m₁
    | loop condition body => exact repeatWhile_traced n condition body m
    | function name params body =>
        -- A declaration is noted down too, but it is no call.
        let noted := m.note (.declaring name.name params.length)
        let made := noted.makeCallable (.user ⟨name, params, body⟩ noted.current)
        have hmade : m.Traced (some m.current) [] made.2 :=
          .of_eq rfl rfl ((m.callings_note _).trans (List.append_nil _))
        exact traced_done (hmade.trans (.define made.2 name.lexeme made.1))
    | giveBack word result =>
        exact traced_andThen_silent (evalOptional_traced n result m) fun v m₁ =>
          traced_done (.refl m₁)

/-- A value that may be missing. -/
theorem evalOptional_traced : ∀ n e m,
    (evalOptional n e m).Traced (some m.current) (evalOptionalCalls n e m) m
  | 0, _, _ => traced_starved
  | _ + 1, none, m => traced_done (.refl m)
  | n + 1, some e, m => eval_traced n e m

/-- Rounds of a loop. The trace has the calls of each round in turn. -/
theorem repeatWhile_traced : ∀ n condition body m,
    (repeatWhile n condition body m).Traced (some m.current)
      (repeatWhileCalls n condition body m) m
  | 0, _, _, _ => traced_starved
  | n + 1, condition, body, m => by
    refine traced_andThen (eval_traced n condition m) fun v m₁ => ?_
    split
    · refine traced_andThen (exec_traced n body m₁) fun flow m₂ => ?_
      cases flow with
      | normal => exact repeatWhile_traced n condition body m₂
      | returned v => exact traced_done (.refl m₂)
    · exact traced_done (.refl m₁)

end

end Scriptlet
