import Scriptlet.Proofs.Run.Bindings
import Scriptlet.Proofs.Run.Look
import Scriptlet.Proofs.Run.Scopes
import Scriptlet.Proofs.Tree.Alike
import Scriptlet.Run.Eval

/-!
# `Scriptlet.Proofs.Run.Alike`: alike programs do the same

Machines are alike if they differ in the symbols and lines of what their scopes hold, and in
nothing else. Alike programs that run on alike machines come to alike ends: the same output,
the same input used up, the same random numbers drawn, the same notes in the journal, and
errors that differ in symbols and lines at most (`runProgram_alike`).

Values, scopes and operations come first, each with the one fact that is needed of it. The
lemmas about the evaluator (`eval_alike` and its like) then only follow its recursion.
-/

set_option autoImplicit false

namespace Scriptlet

variable {ρ : Likeness}

/-! ### Values -/

/-- Functions that do the same, but for symbols and lines. -/
inductive Code.Alike (ρ : Likeness) : Code → Code → Prop where
  | native {name : String} {arity : Nat} {op : Native} :
      Code.Alike ρ (.native name arity op) (.native name arity op)
  | user {name name' : Token} {params params' : List Token} {body body' : List Stmt}
      {closure : ScopeId} : name.NameAlike ρ name' →
      List.Forall₂ (Token.NameAlike ρ) params params' → Stmt.AllAlike ρ body body' →
      Code.Alike ρ (.user ⟨name, params, body⟩ closure) (.user ⟨name', params', body'⟩ closure)

/-- Function values with the same identity that do the same. -/
structure Callable.Alike (ρ : Likeness) (f f' : Callable) : Prop where
  identity : f.identity = f'.identity
  code : f.code.Alike ρ f'.code

/-- Values that differ in the symbols and lines of functions at most. -/
inductive Value.Alike (ρ : Likeness) : Value → Value → Prop where
  | nil : Value.Alike ρ .nil .nil
  | bool (b : Bool) : Value.Alike ρ (.bool b) (.bool b)
  | number (x : Float) : Value.Alike ρ (.number x) (.number x)
  | string (s : String) : Value.Alike ρ (.string s) (.string s)
  | callable {f f' : Callable} : f.Alike ρ f' → Value.Alike ρ (.callable f) (.callable f')

namespace Callable.Alike

variable {f f' : Callable}

/-- Both functions have one name, so that neither is told from the other by it. -/
theorem name_eq (h : f.Alike ρ f') : f.name = f'.name := by
  obtain ⟨identity, code⟩ := f
  obtain ⟨identity', code'⟩ := f'
  cases h.code with
  | native => rfl
  | user hname => exact hname.name

/-- They take as many arguments. -/
theorem arity_eq (h : f.Alike ρ f') : f.arity = f'.arity := by
  obtain ⟨identity, code⟩ := f
  obtain ⟨identity', code'⟩ := f'
  cases h.code with
  | native => rfl
  | user _ hparams => exact hparams.length_eq

/-- Both are natives or neither is. -/
theorem isNative_eq (h : f.Alike ρ f') : f.isNative = f'.isNative := by
  obtain ⟨identity, code⟩ := f
  obtain ⟨identity', code'⟩ := f'
  cases h.code <;> rfl

/-- They are shown in the same way, since only the name is shown. -/
theorem text_eq (h : f.Alike ρ f') : f.text = f'.text := by
  unfold text
  rw [h.name_eq, h.isNative_eq]

end Callable.Alike

/-- Alike values look the same. -/
theorem Value.resemblance_alike (ρ : Likeness) : Resemblance (Value.Alike ρ) where
  look h := by
    cases h with
    | callable hf =>
        simp only [look, hf.identity, hf.name_eq, hf.arity_eq, hf.isNative_eq]
    | _ => rfl
  refl := by
    intro v h
    cases v with
    | callable f => exact absurd rfl (h f)
    | _ => constructor

namespace Value.Alike

variable {v v' : Value}

/-- What an operation or a host function can see of a value is the same for both. -/
theorem look_eq (h : v.Alike ρ v') : v.look = v'.look := (resemblance_alike ρ).look h

/-- They are printed alike. -/
theorem text_eq (h : v.Alike ρ v') : v.text = v'.text := text_eq_of_look h.look_eq

/-- They count alike as conditions. -/
theorem isTruthy_eq (h : v.Alike ρ v') : v.isTruthy = v'.isTruthy :=
  isTruthy_eq_of_look h.look_eq

end Value.Alike

/-! ### Scopes -/

/-- Scopes that bind corresponding names to alike values, in the same order. -/
structure Scope.Alike (ρ : Likeness) (s s' : Scope) : Prop where
  parent : s.parent = s'.parent
  bindings : Scope.SameBindings ρ.Name (Value.Alike ρ) s.bindings s'.bindings

namespace Scope.Alike

variable {s s' : Scope} {name name' : Symbol}

/-- A name is bound in one scope when the corresponding name is in the other. -/
theorem binds_eq (h : s.Alike ρ s') (hname : ρ.Name name name') :
    s.binds name = s'.binds name' :=
  binds_eq_of_same ρ.beq_eq h.bindings hname

/-- What is found under corresponding names is alike, or neither scope has anything. -/
theorem find? (h : s.Alike ρ s') (hname : ρ.Name name name') :
    (s.find? name).Rel (Value.Alike ρ) (s'.find? name') :=
  find?_of_same ρ.beq_eq h.bindings hname

/-- Defining corresponding names keeps scopes alike, whether the names are new or not. -/
theorem define (h : s.Alike ρ s') (hname : ρ.Name name name') {v v' : Value}
    (hv : v.Alike ρ v') : (s.define name v).Alike ρ (s'.define name' v') where
  parent := by rw [parent_define, parent_define, h.parent]
  bindings := define_of_same ρ.beq_eq h.bindings hname hv

/-- So does assigning to them. -/
theorem assign (h : s.Alike ρ s') (hname : ρ.Name name name') {v v' : Value}
    (hv : v.Alike ρ v') : (s.assign name v).Alike ρ (s'.assign name' v') :=
  ⟨h.parent, rebind_of_same ρ.beq_eq h.bindings hname hv⟩

end Scope.Alike

/-- Stores of as many scopes, alike one by one. -/
structure Scopes.Alike (ρ : Likeness) (s s' : Scopes) : Prop where
  count : s.count = s'.count
  cells : ∀ id, (s.at? id).Rel (Scope.Alike ρ) (s'.at? id)

namespace Scopes.Alike

variable {s s' : Scopes} {name name' : Symbol}

/-- The search for a name ends in the same scope of both stores. The search goes to older scopes, so
this is by induction on the scope where it starts. -/
theorem resolve_eq (h : s.Alike ρ s') (hname : ρ.Name name name') (id : ScopeId) :
    s.resolve name id = s'.resolve name' id := by
  induction id using Nat.strongRecOn with
  | ind id ih =>
      rw [Scopes.resolve_eq, Scopes.resolve_eq s']
      have hcell := h.cells id
      generalize s.at? id = cell, s'.at? id = cell' at hcell
      cases hcell with
      | none => rfl
      | some hscope =>
          dsimp only
          rw [hscope.binds_eq hname, hscope.parent]
          split
          -- Both scopes bind the name, or both searches go on to the same scope.
          · rfl
          · split
            · rfl
            · split
              case isTrue hlt => exact ih _ hlt
              case isFalse => rfl

/-- The value that is found is that of one scope, the same in both stores. -/
theorem get? (h : s.Alike ρ s') (hname : ρ.Name name name') (id : ScopeId) :
    (s.get? id name).Rel (Value.Alike ρ) (s'.get? id name') := by
  unfold Scopes.get?
  rw [h.resolve_eq hname]
  cases s'.resolve name' id with
  | none => exact .none
  | some owner =>
      have hcell : (s.cells[owner]?).Rel (Scope.Alike ρ) s'.cells[owner]? := h.cells owner
      simp only [Option.bind_eq_bind, Option.bind_some]
      generalize s.cells[owner]? = cell, s'.cells[owner]? = cell' at hcell
      cases hcell with
      | none => exact .none
      | some hscope => exact hscope.find? hname

/-- Opening a scope adds one without names to both stores. -/
theorem openScope (h : s.Alike ρ s') (parent : Option ScopeId) :
    (s.openScope parent).2.Alike ρ (s'.openScope parent).2 := by
  constructor
  · rw [count_openScope, count_openScope, h.count]
  · intro id
    rw [at?_openScope, at?_openScope, h.count]
    split
    · exact .some ⟨rfl, .nil⟩
    · exact h.cells id

/-- Changes that keep scopes alike keep stores alike. -/
theorem modify (h : s.Alike ρ s') (id : ScopeId) {f f' : Scope → Scope}
    (hf : ∀ scope scope', scope.Alike ρ scope' → (f scope).Alike ρ (f' scope')) :
    Scopes.Alike ρ ⟨s.cells.modify id f⟩ ⟨s'.cells.modify id f'⟩ := by
  constructor
  · simpa [Scopes.count] using h.count
  · intro i
    have hcell := h.cells i
    rw [at?_modify, at?_modify]
    split
    · generalize s.at? i = cell, s'.at? i = cell' at hcell
      cases hcell with
      | none => exact .none
      | some hscope => exact .some (hf _ _ hscope)
    · exact hcell

/-- Defining corresponding names in one scope of both stores. -/
theorem define (h : s.Alike ρ s') (id : ScopeId) (hname : ρ.Name name name') {v v' : Value}
    (hv : v.Alike ρ v') : (s.define id name v).Alike ρ (s'.define id name' v') :=
  h.modify id fun _ _ hscope => hscope.define hname hv

/-- Assigning to corresponding names in one scope of both stores. -/
theorem assignAt (h : s.Alike ρ s') (id : ScopeId) (hname : ρ.Name name name') {v v' : Value}
    (hv : v.Alike ρ v') : (s.assignAt id name v).Alike ρ (s'.assignAt id name' v') :=
  h.modify id fun _ _ hscope => hscope.assign hname hv

/-- Binding the arguments of a call to its parameters, one after the other. -/
theorem defineAll {params params' : List Token} {args args' : List Value}
    (h : s.Alike ρ s') (id : ScopeId)
    (hparams : List.Forall₂ (Token.NameAlike ρ) params params')
    (hargs : List.Forall₂ (Value.Alike ρ) args args') :
    (s.defineAll id params args).Alike ρ (s'.defineAll id params' args') := by
  unfold Scopes.defineAll
  induction hparams generalizing s s' args args' with
  | nil => exact h
  | cons hparam _ ih =>
      cases hargs with
      | nil => exact h
      | cons hv hrest => exact ih (h.define id hparam.lexeme hv) hrest

/-- A scope of one store binds as many names as that of the other. -/
theorem size_eq (h : s.Alike ρ s') (id : ScopeId) : s.size id = s'.size id := by
  have hcell : (s.cells[id]?).Rel (Scope.Alike ρ) s'.cells[id]? := h.cells id
  unfold Scopes.size
  generalize s.cells[id]? = cell, s'.cells[id]? = cell' at hcell
  cases hcell with
  | none => rfl
  | some hscope => exact hscope.bindings.length_eq

end Scopes.Alike

/-! ### Machines and outcomes -/

/-- Machines that differ in what their scopes hold only, and there in symbols and lines. -/
def Machine.Alike (ρ : Likeness) (m m' : Machine) : Prop :=
  ∃ scopes, m.scopes.Alike ρ scopes ∧ m' = { m with scopes }

namespace Machine.Alike

variable {m m' : Machine} {name name' : Symbol} {v v' : Value}

/-- Both machines run in the same scope. -/
theorem current_eq (h : m.Alike ρ m') : m.current = m'.current := by
  obtain ⟨scopes, -, rfl⟩ := h
  rfl

/-- A note is added to both journals. -/
theorem note (h : m.Alike ρ m') (record : Record) : (m.note record).Alike ρ (m'.note record) := by
  obtain ⟨scopes, hscopes, rfl⟩ := h
  exact ⟨scopes, hscopes, rfl⟩

/-- Both go to the same scope. -/
theorem enter (h : m.Alike ρ m') (scope : ScopeId) : (m.enter scope).Alike ρ (m'.enter scope) := by
  obtain ⟨scopes, hscopes, rfl⟩ := h
  exact ⟨scopes, hscopes, rfl⟩

/-- Corresponding names have alike values in both machines, or are unbound in both. -/
theorem get? (h : m.Alike ρ m') (hname : ρ.Name name name') :
    (m.get? name).Rel (Value.Alike ρ) (m'.get? name') := by
  obtain ⟨scopes, hscopes, rfl⟩ := h
  exact hscopes.get? hname m.current

/-- Corresponding names are bound in the same scope of both machines, or nowhere in both. -/
theorem owner?_eq (h : m.Alike ρ m') (hname : ρ.Name name name') :
    m.owner? name = m'.owner? name' := by
  obtain ⟨scopes, hscopes, rfl⟩ := h
  exact hscopes.resolve_eq hname m.current

/-- Corresponding names are defined in the current scope of both. -/
theorem define (h : m.Alike ρ m') (hname : ρ.Name name name') (hv : v.Alike ρ v') :
    (m.define name v).Alike ρ (m'.define name' v') := by
  obtain ⟨scopes, hscopes, rfl⟩ := h
  exact ⟨_, hscopes.define m.current hname hv, rfl⟩

/-- Corresponding names are assigned to in one scope of both. -/
theorem assignAt (h : m.Alike ρ m') (owner : ScopeId) (hname : ρ.Name name name')
    (hv : v.Alike ρ v') : (m.assignAt owner name v).Alike ρ (m'.assignAt owner name' v') := by
  obtain ⟨scopes, hscopes, rfl⟩ := h
  exact ⟨_, hscopes.assignAt owner hname hv, rfl⟩

/-- A function that is made gets the same identity in both machines. -/
theorem makeCallable (h : m.Alike ρ m') {code code' : Code} (hcode : code.Alike ρ code') :
    (m.makeCallable code).1.Alike ρ (m'.makeCallable code').1 ∧
      (m.makeCallable code).2.Alike ρ (m'.makeCallable code').2 := by
  obtain ⟨scopes, hscopes, rfl⟩ := h
  exact ⟨.callable ⟨rfl, hcode⟩, scopes, hscopes, rfl⟩

/-- A scope that is opened gets the same number in both machines. -/
theorem openScope (h : m.Alike ρ m') (parent : ScopeId) :
    (m.openScope parent).1 = (m'.openScope parent).1 ∧
      (m.openScope parent).2.Alike ρ (m'.openScope parent).2 := by
  obtain ⟨scopes, hscopes, rfl⟩ := h
  exact ⟨hscopes.count, _, hscopes.openScope (some parent), rfl⟩

/-- The arguments of a call are bound in both machines. -/
theorem defineAll (h : m.Alike ρ m') (scope : ScopeId) {params params' : List Token}
    {args args' : List Value} (hparams : List.Forall₂ (Token.NameAlike ρ) params params')
    (hargs : List.Forall₂ (Value.Alike ρ) args args') :
    Machine.Alike ρ { m with scopes := m.scopes.defineAll scope params args }
      { m' with scopes := m'.scopes.defineAll scope params' args' } := by
  obtain ⟨scopes, hscopes, rfl⟩ := h
  exact ⟨_, hscopes.defineAll scope hparams hargs, rfl⟩

/-- A host function sees of its arguments what they look like, and touches no scope. So it does the
same to both machines. -/
theorem run (h : m.Alike ρ m') (op : Native) {args args' : List Value}
    (hargs : List.Forall₂ (Value.Alike ρ) args args') :
    Value.Replies (Value.Alike ρ) (op.run args m).1 (op.run args' m').1 ∧
      (op.run args m).2.Alike ρ (op.run args' m').2 := by
  obtain ⟨scopes, hscopes, rfl⟩ := h
  obtain ⟨hreply, hmachine⟩ := (Value.resemblance_alike ρ).run op hargs m
  obtain ⟨input, output, generator, clock, hrun⟩ := Native.run_machine op args m
  have hblind := Native.blind_run op args' m scopes m.current m.journal
  rw [← hmachine, hrun] at hblind
  rw [hblind, hrun]
  exact ⟨hreply, scopes, hscopes, rfl⟩

end Machine.Alike

/-- The same fault at alike tokens. -/
structure RuntimeError.Alike (ρ : Likeness) (e e' : RuntimeError) : Prop where
  token : e.token.Alike ρ e'.token
  fault : e.fault = e'.fault

/-- Outcomes of the same sort, with alike machines, and results as `A` says. -/
inductive Outcome.Alike {α : Type} (ρ : Likeness) (A : α → α → Prop) :
    Outcome α → Outcome α → Prop where
  | done {v v' : α} {m m' : Machine} : A v v' → m.Alike ρ m' →
      Outcome.Alike ρ A (.done v m) (.done v' m')
  | failed {e e' : RuntimeError} {m m' : Machine} : e.Alike ρ e' → m.Alike ρ m' →
      Outcome.Alike ρ A (.failed e m) (.failed e' m')
  | starved : Outcome.Alike ρ A .starved .starved

namespace Outcome.Alike

variable {α β : Type} {A : α → α → Prop} {B : β → β → Prop}

/-- The rule for two steps in a row. -/
theorem andThen {x x' : Outcome α} {f f' : α → Machine → Outcome β} (hx : x.Alike ρ A x')
    (hf : ∀ v v' m m', A v v' → m.Alike ρ m' → (f v m).Alike ρ B (f' v' m')) :
    (x.andThen f).Alike ρ B (x'.andThen f') := by
  cases hx with
  | done hv hm => exact hf _ _ _ _ hv hm
  | failed he hm => exact .failed he hm
  | starved => exact .starved

/-- Leaving a scope, whatever the outcome. -/
theorem enter {x x' : Outcome α} (hx : x.Alike ρ A x') (scope : ScopeId) :
    (x.mapMachine (·.enter scope)).Alike ρ A (x'.mapMachine (·.enter scope)) := by
  cases hx with
  | done hv hm => exact .done hv (hm.enter scope)
  | failed he hm => exact .failed he (hm.enter scope)
  | starved => exact .starved

/-- An operation that gives a value or a fault, at corresponding tokens. -/
theorem ofExcept {token token' : Token} {reply reply' : Except Fault Value} {m m' : Machine}
    (htoken : token.Alike ρ token') (hreply : Value.Replies (Value.Alike ρ) reply reply')
    (hm : m.Alike ρ m') :
    (Outcome.ofExcept token reply m).Alike ρ (Value.Alike ρ)
      (Outcome.ofExcept token' reply' m') := by
  cases hreply with
  | ok hv => exact .done hv hm
  | error fault => exact .failed ⟨htoken, rfl⟩ hm

/-- The error at an unbound name has the name in its text, and corresponding tokens have one name.
-/
theorem unbound {name name' : Token} (hname : name.Alike ρ name') {m m' : Machine}
    (hm : m.Alike ρ m') :
    Outcome.Alike ρ A (.failed ⟨name, .undefinedVariable name.name⟩ m)
      (.failed ⟨name', .undefinedVariable name'.name⟩ m') := by
  refine .failed ⟨hname, ?_⟩ hm
  show Fault.undefinedVariable name.name = .undefinedVariable name'.name
  rw [hname.name]

end Outcome.Alike

/-- Statements that ended in the same way, with alike values if they gave back any. -/
inductive Flow.Alike (ρ : Likeness) : Flow → Flow → Prop where
  | normal : Flow.Alike ρ .normal .normal
  | returned {v v' : Value} : v.Alike ρ v' → Flow.Alike ρ (.returned v) (.returned v')

/-- What a body comes to as the result of a call. -/
theorem Flow.Alike.result {flow flow' : Flow} (h : flow.Alike ρ flow') :
    flow.result.Alike ρ flow'.result := by
  cases h with
  | normal => exact .nil
  | returned hv => exact hv

/-- Machines without any names are alike. -/
theorem Machine.alike_blank (input : Reader) (output : Sink) (generator : Generator)
    (clock : Clock) :
    (blank input output generator clock).Alike ρ (blank input output generator clock) := by
  have hempty : Scopes.empty.Alike ρ Scopes.empty := ⟨rfl, fun _ => .none⟩
  exact ⟨_, hempty.openScope none, rfl⟩

/-! ### More that corresponds -/

section Mono

variable {ρ' : Likeness}

/-- Functions stay alike when more symbols and lines may correspond. -/
theorem Callable.Alike.mono (hle : ρ.Le ρ') {f f' : Callable} (h : f.Alike ρ f') :
    f.Alike ρ' f' := by
  obtain ⟨identity, code⟩ := f
  obtain ⟨identity', code'⟩ := f'
  refine ⟨h.identity, ?_⟩
  cases h.code with
  | native => exact .native
  | user hname hparams hbody =>
      exact .user (hname.mono hle) (hparams.imp fun _ _ h => h.mono hle) (hbody.mono hle)

/-- So do values. -/
theorem Value.Alike.mono (hle : ρ.Le ρ') {v v' : Value} (h : v.Alike ρ v') : v.Alike ρ' v' := by
  cases h with
  | callable hf => exact .callable (hf.mono hle)
  | _ => constructor

/-- So do scopes, since they bind the same names still. -/
theorem Scope.Alike.mono (hle : ρ.Le ρ') {s s' : Scope} (h : s.Alike ρ s') : s.Alike ρ' s' :=
  ⟨h.parent, h.bindings.imp fun _ _ hb => ⟨hle.name hb.1, hb.2.mono hle⟩⟩

/-- So do stores, scope by scope. -/
theorem Scopes.Alike.mono (hle : ρ.Le ρ') {s s' : Scopes} (h : s.Alike ρ s') : s.Alike ρ' s' := by
  refine ⟨h.count, fun id => ?_⟩
  have hcell := h.cells id
  generalize s.at? id = cell, s'.at? id = cell' at hcell
  cases hcell with
  | none => exact .none
  | some hscope => exact .some (hscope.mono hle)

/-- So do machines. -/
theorem Machine.Alike.mono (hle : ρ.Le ρ') {m m' : Machine} (h : m.Alike ρ m') :
    m.Alike ρ' m' := by
  obtain ⟨scopes, hscopes, rfl⟩ := h
  exact ⟨scopes, hscopes.mono hle, rfl⟩

end Mono

/-! ### The evaluator -/

mutual

/-- Alike expressions come to alike values or errors. The induction is on the steps, and there is
one case for each kind of expression. -/
theorem eval_alike : ∀ n {e e' m m'}, e.Alike ρ e' → m.Alike ρ m' →
    (eval n e m).Alike ρ (Value.Alike ρ) (eval n e' m')
  | 0, _, _, _, _, _, _ => .starved
  | n + 1, _, _, m, m', he, hm => by
    cases he with
    | literal => exact .done ((Value.resemblance_alike ρ).ofLiteral _) hm
    | group he => exact eval_alike n he hm
    | unary hop he =>
        refine (eval_alike n he hm).andThen fun v v' m m' hv hm => ?_
        rw [← hop.kind]
        exact .ofExcept hop ((Value.resemblance_alike ρ).unary _ hv) hm
    | binary ha hop hb =>
        refine (eval_alike n ha hm).andThen fun v v' m m' hv hm => ?_
        refine (eval_alike n hb hm).andThen fun w w' m m' hw hm => ?_
        rw [← hop.kind]
        exact .ofExcept hop ((Value.resemblance_alike ρ).binary _ hv hw) hm
    | logical ha hop hb =>
        refine (eval_alike n ha hm).andThen fun v v' m m' hv hm => ?_
        rw [← hop.kind, Operator.decides_look _ hv.look_eq]
        split
        · exact .done hv hm
        · exact eval_alike n hb hm
    | @get name name' hname =>
        have hget := hm.get? hname.lexeme
        -- What is looked up is alike or missing in both, and this is all that the rest sees.
        simp only [eval]
        generalize m.get? name.lexeme = found, m'.get? name'.lexeme = found' at hget
        cases hget with
        | none => exact .unbound hname.toAlike hm
        | some hv => exact .done hv hm
    | set hname he =>
        refine (eval_alike n he hm).andThen fun v v' m m' hv hm => ?_
        -- Both machines bind the name in the same scope or in none, so the branches meet.
        rw [hm.owner?_eq hname.lexeme]
        split
        · exact .done hv (hm.assignAt _ hname.lexeme hv)
        · exact .unbound hname.toAlike hm
    | call hf hparen hargs =>
        refine (eval_alike n hf hm).andThen fun v v' m m' hv hm => ?_
        refine (evalAll_alike n hargs hm).andThen fun vs vs' m m' hvs hm => ?_
        cases hv with
        | callable hf =>
            dsimp only
            -- The check of the arity and the record of the call show nothing of the symbols.
            rw [hvs.length_eq, hf.arity_eq, hf.text_eq]
            split
            · exact invoke_alike n hf hparen hvs (hm.note _)
            · exact .failed ⟨hparen, rfl⟩ hm
        | _ => exact .failed ⟨hparen, rfl⟩ hm

/-- Alike arguments are evaluated from left to right. -/
theorem evalAll_alike : ∀ n {es es' m m'}, Expr.AllAlike ρ es es' → m.Alike ρ m' →
    (evalAll n es m).Alike ρ (List.Forall₂ (Value.Alike ρ)) (evalAll n es' m')
  | 0, _, _, _, _, _, _ => .starved
  | n + 1, _, _, m, m', hes, hm => by
    cases hes with
    | nil => exact .done .nil hm
    | cons he hes =>
        refine (eval_alike n he hm).andThen fun v v' m m' hv hm => ?_
        refine (evalAll_alike n hes hm).andThen fun vs vs' m m' hvs hm => ?_
        exact .done (.cons hv hvs) hm

/-- Alike functions do the same when they are called, natives and declared ones. -/
theorem invoke_alike : ∀ n {f f' paren paren' args args' m m'}, f.Alike ρ f' →
    paren.Alike ρ paren' → List.Forall₂ (Value.Alike ρ) args args' → m.Alike ρ m' →
    (invoke n f paren args m).Alike ρ (Value.Alike ρ) (invoke n f' paren' args' m')
  | 0, _, _, _, _, _, _, _, _, _, _, _, _ => .starved
  | n + 1, ⟨identity, code⟩, ⟨identity', code'⟩, paren, paren', args, args', m, m', hf, hparen,
      hargs, hm => by
    cases hf.code with
    | @native name arity op =>
        obtain ⟨hreply, hmachine⟩ := hm.run op hargs
        exact .ofExcept hparen hreply hmachine
    | @user _ _ _ params' _ body' closure hname hparams hbody =>
        obtain ⟨hscope, hinside⟩ := hm.openScope closure
        have hbound := hinside.defineAll (m.openScope closure).1 hparams hargs
        have hrun := execIn_alike n (m.openScope closure).1 hbody hbound
        -- The new scopes have one number, as the stores hold equally many.
        show Outcome.Alike ρ (Value.Alike ρ) _
          ((execIn n (m'.openScope closure).1 body' { (m'.openScope closure).2 with
            scopes := (m'.openScope closure).2.scopes.defineAll (m'.openScope closure).1 params'
              args' }).andThen fun flow m => .done flow.result m)
        rw [← hscope]
        exact hrun.andThen fun flow flow' m m' hflow hm => .done hflow.result hm

/-- Alike bodies do the same in a scope that both machines go to and come back from. -/
theorem execIn_alike : ∀ n scope {body body' m m'}, Stmt.AllAlike ρ body body' →
    m.Alike ρ m' →
    (execIn n scope body m).Alike ρ (Flow.Alike ρ) (execIn n scope body' m')
  | 0, _, _, _, _, _, _, _ => .starved
  | n + 1, scope, body, body', m, m', hbody, hm => by
    have hrun := execAll_alike n hbody (hm.enter scope)
    unfold execIn
    -- Both come back to one scope.
    rw [hm.current_eq]
    exact hrun.enter m'.current

/-- Alike statements do the same one after the other, up to the first one that does not end
normally. -/
theorem execAll_alike : ∀ n {ss ss' m m'}, Stmt.AllAlike ρ ss ss' → m.Alike ρ m' →
    (execAll n ss m).Alike ρ (Flow.Alike ρ) (execAll n ss' m')
  | 0, _, _, _, _, _, _ => .starved
  | n + 1, _, _, m, m', hss, hm => by
    cases hss with
    | nil => exact .done .normal hm
    | cons hs hss =>
        refine (exec_alike n hs hm).andThen fun flow flow' m m' hflow hm => ?_
        cases hflow with
        | normal => exact execAll_alike n hss hm
        | returned hv => exact .done (.returned hv) hm

/-- Alike statements do the same. A block is the only one that opens a scope, and a declared
function the only one that makes a value. -/
theorem exec_alike : ∀ n {s s' m m'}, s.Alike ρ s' → m.Alike ρ m' →
    (exec n s m).Alike ρ (Flow.Alike ρ) (exec n s' m')
  | 0, _, _, _, _, _, _ => .starved
  | n + 1, _, _, m, m', hs, hm => by
    cases hs with
    | expression he =>
        exact (eval_alike n he hm).andThen fun v v' m m' _ hm => .done .normal hm
    | declare hname hinit =>
        refine (evalOptional_alike n hinit hm).andThen fun v v' m m' hv hm => ?_
        exact .done .normal (hm.define hname.lexeme hv)
    | @block body body' hbody =>
        obtain ⟨hscope, hinside⟩ := hm.openScope m.current
        have hrun := execIn_alike n (m.openScope m.current).1 hbody hinside
        show Outcome.Alike ρ (Flow.Alike ρ) _
          (execIn n (m'.openScope m'.current).1 body' (m'.openScope m'.current).2)
        rw [← hm.current_eq, ← hscope]
        exact hrun
    | branch hc hyes hno =>
        refine (eval_alike n hc hm).andThen fun v v' m m' hv hm => ?_
        rw [hv.isTruthy_eq]
        split
        · exact exec_alike n hyes hm
        · exact exec_alike n hno hm
    | branchOnly hc hyes =>
        refine (eval_alike n hc hm).andThen fun v v' m m' hv hm => ?_
        rw [hv.isTruthy_eq]
        split
        · exact exec_alike n hyes hm
        · exact .done .normal hm
    | loop hc hbody => exact repeatWhile_alike n hc hbody hm
    | @function name name' params params' body body' hname hparams hbody =>
        have hnoted := hm.note (.declaring name.name params.length)
        have hcode : Code.Alike ρ (.user ⟨name, params, body⟩ m.current)
            (.user ⟨name', params', body'⟩ m.current) := .user hname hparams hbody
        obtain ⟨hf, hmade⟩ := hnoted.makeCallable hcode
        have hdefined := hmade.define hname.lexeme hf
        simp only [exec]
        -- The record of the declaration and the scope that the function remembers are the same.
        rw [← hname.name, ← hparams.length_eq, ← hnoted.current_eq]
        exact .done .normal hdefined
    | giveBack _ hresult =>
        refine (evalOptional_alike n hresult hm).andThen fun v v' m m' hv hm => ?_
        exact .done (.returned hv) hm

/-- A value that may be missing. -/
theorem evalOptional_alike : ∀ n {e e' m m'}, e.Rel (Expr.Alike ρ) e' → m.Alike ρ m' →
    (evalOptional n e m).Alike ρ (Value.Alike ρ) (evalOptional n e' m')
  | 0, _, _, _, _, _, _ => .starved
  | n + 1, _, _, m, m', he, hm => by
    cases he with
    | none => exact .done .nil hm
    | some he => exact eval_alike n he hm

/-- Rounds of a loop. Each condition counts the same in both, so the loops end in the same round. -/
theorem repeatWhile_alike : ∀ n {c c' body body' m m'}, c.Alike ρ c' → body.Alike ρ body' →
    m.Alike ρ m' →
    (repeatWhile n c body m).Alike ρ (Flow.Alike ρ) (repeatWhile n c' body' m')
  | 0, _, _, _, _, _, _, _, _, _ => .starved
  | n + 1, _, _, _, _, m, m', hc, hbody, hm => by
    refine (eval_alike n hc hm).andThen fun v v' m m' hv hm => ?_
    rw [hv.isTruthy_eq]
    split
    · refine (exec_alike n hbody hm).andThen fun flow flow' m m' hflow hm => ?_
      cases hflow with
      | normal => exact repeatWhile_alike n hc hbody hm
      | returned hv => exact .done (.returned hv) hm
    · exact .done .normal hm

end

/-- Alike programs do the same to alike machines. -/
theorem runProgram_alike (n : Nat) {program program' : Program} {m m' : Machine}
    (hprogram : Stmt.AllAlike ρ program program') (hm : m.Alike ρ m') :
    (runProgram n program m).Alike ρ Eq (runProgram n program' m') := by
  refine (execAll_alike n hprogram hm).andThen fun flow flow' m m' hflow hm => ?_
  cases hflow with
  | normal => exact .done rfl hm
  | returned hv =>
      dsimp only
      -- A value given back at the top is noted down by its text, which is the same for both.
      rw [hv.text_eq]
      exact .done rfl (hm.note _)

end Scriptlet
