import Scriptlet.Proofs.Run.Look
import Scriptlet.Proofs.Run.Scopes
import Scriptlet.Proofs.Run.Upkeep

/-!
# `Scriptlet.Proofs.Run.Coupling`: two runs side by side

The same program runs on two machines whose scopes are not the same: they have other numbers,
or other contents where the program does not look. What it takes for the two runs to end in
the same way is said here once.

A `Coupling` says which scopes and which stores correspond. New scopes are opened while
programs run, so a correspondence grows: it is indexed by a `World`, and worlds are ordered.
Names may be looked up in all scopes that correspond, but declared only in those that are
`Settled`. A coupling is `Lawful` if looking up, declaring, assigning and opening scopes
respect it.

* `Coupling.eval_coupled`, `Coupling.exec_coupled` and their like: coupled machines stay
  coupled, whatever runs on both, and the two runs end in the same way. In a scope that is not
  settled this holds of statements that declare nothing there (`Stmt.Quiet`).
* `Coupling.runProgram_coupled`: the same for whole programs.
-/

set_option autoImplicit false

namespace Scriptlet

/-! ### Statements that declare nothing -/

/-- The statement declares no name in the scope that it runs in. -/
inductive Stmt.Quiet : Stmt → Prop where
  | expression {e : Expr} : Stmt.Quiet (.expression e)
  /-- What a block declares, it declares in its own scope. -/
  | block {body : List Stmt} : Stmt.Quiet (.block body)
  | branch {c : Expr} {yes no : Stmt} : yes.Quiet → no.Quiet →
      Stmt.Quiet (.branch c yes (some no))
  | branchOnly {c : Expr} {yes : Stmt} : yes.Quiet → Stmt.Quiet (.branch c yes none)
  | loop {c : Expr} {body : Stmt} : body.Quiet → Stmt.Quiet (.loop c body)
  | giveBack {word : Token} {result : Option Expr} : Stmt.Quiet (.giveBack word result)

/-! ### Values -/

/-- Values that differ at most in the scopes that functions remember, which correspond as `S`
says. -/
inductive Value.Coupled (S : ScopeId → ScopeId → Prop) : Value → Value → Prop where
  | plain {v : Value} : (∀ f, v ≠ .callable f) → Value.Coupled S v v
  | native {identity arity : Nat} {name : String} {op : Native} :
      Value.Coupled S (.callable ⟨identity, .native name arity op⟩)
        (.callable ⟨identity, .native name arity op⟩)
  | user {identity : Nat} {decl : FunctionDef} {closure closure' : ScopeId} :
      S closure closure' → Value.Coupled S (.callable ⟨identity, .user decl closure⟩)
        (.callable ⟨identity, .user decl closure'⟩)

/-- Coupled values look the same. -/
theorem Value.resemblance_coupled (S : ScopeId → ScopeId → Prop) :
    Resemblance (Value.Coupled S) where
  look h := by cases h <;> rfl
  refl h := .plain h

/-- Values stay coupled when more scopes correspond. -/
theorem Value.Coupled.mono {S S' : ScopeId → ScopeId → Prop} (hS : ∀ i i', S i i' → S' i i')
    {v v' : Value} (h : v.Coupled S v') : v.Coupled S' v' := by
  cases h with
  | plain hv => exact .plain hv
  | native => exact .native
  | user hclosure => exact .user (hS _ _ hclosure)

/-- Only a function corresponds to a function, and both take as many arguments. -/
theorem Value.Coupled.callable {S : ScopeId → ScopeId → Prop} {f : Callable} {v : Value}
    (h : Value.Coupled S (.callable f) v) :
    ∃ f', v = .callable f' ∧ f.arity = f'.arity ∧ f.text = f'.text := by
  cases h with
  | plain hplain => exact absurd rfl (hplain f)
  | native => exact ⟨_, rfl, rfl, rfl⟩
  | user => exact ⟨_, rfl, rfl, rfl⟩

/-- Statements that ended in the same way, with coupled values if they gave back any. -/
inductive Flow.Coupled (S : ScopeId → ScopeId → Prop) : Flow → Flow → Prop where
  | normal : Flow.Coupled S .normal .normal
  | returned {v v' : Value} : v.Coupled S v' → Flow.Coupled S (.returned v) (.returned v')

/-- What a body comes to as the result of a call. -/
theorem Flow.Coupled.result {S : ScopeId → ScopeId → Prop} {flow flow' : Flow}
    (h : flow.Coupled S flow') : flow.result.Coupled S flow'.result := by
  cases h with
  | normal => exact (Value.resemblance_coupled S).nil
  | returned hv => exact hv

/-! ### Couplings -/

/-- How the scopes of two machines correspond. -/
structure Coupling where
  World : Type
  /-- All that corresponds in the first world corresponds in the second one. -/
  Le : World → World → Prop
  /-- Scopes from which the same names are seen. -/
  Scope : World → ScopeId → ScopeId → Prop
  /-- Scopes that are each other's only counterpart, so that names may be declared there. -/
  Settled : World → ScopeId → ScopeId → Prop
  Stores : World → Scopes → Scopes → Prop
  Journals : Array Record → Array Record → Prop

namespace Coupling

variable (C : Coupling)

/-- Values whose scopes correspond. -/
abbrev Value (w : C.World) : Scriptlet.Value → Scriptlet.Value → Prop :=
  Value.Coupled (C.Scope w)

/-- What is done to scopes respects the coupling. -/
structure Lawful : Prop where
  refl (w : C.World) : C.Le w w
  trans {w w₁ w₂ : C.World} : C.Le w w₁ → C.Le w₁ w₂ → C.Le w w₂
  scope {w w₁ : C.World} {i i' : ScopeId} : C.Le w w₁ → C.Scope w i i' → C.Scope w₁ i i'
  settled {w w₁ : C.World} {i i' : ScopeId} : C.Le w w₁ → C.Settled w i i' →
    C.Settled w₁ i i'
  of_settled {w : C.World} {i i' : ScopeId} : C.Settled w i i' → C.Scope w i i'
  note {j j' : Array Record} (record : Record) : C.Journals j j' →
    C.Journals (j.push record) (j'.push record)
  get {w : C.World} {s s' : Scopes} {i i' : ScopeId} (name : Symbol) : C.Stores w s s' →
    C.Scope w i i' → (s.get? i name).Rel (C.Value w) (s'.get? i' name)
  resolve {w : C.World} {s s' : Scopes} {i i' : ScopeId} (name : Symbol) : C.Stores w s s' →
    C.Scope w i i' → (s.resolve name i).Rel (C.Settled w) (s'.resolve name i')
  assign {w : C.World} {s s' : Scopes} {i i' : ScopeId} {v v' : Scriptlet.Value}
    (name : Symbol) : C.Stores w s s' → C.Settled w i i' → C.Value w v v' →
    C.Stores w (s.assignAt i name v) (s'.assignAt i' name v')
  define {w : C.World} {s s' : Scopes} {i i' : ScopeId} {v v' : Scriptlet.Value}
    (name : Symbol) : C.Stores w s s' → C.Settled w i i' → C.Value w v v' →
    C.Stores w (s.define i name v) (s'.define i' name v')
  /-- Scopes that are opened inside corresponding ones correspond to each other. -/
  openScope {w : C.World} {s s' : Scopes} {parent parent' : ScopeId} : C.Stores w s s' →
    C.Scope w parent parent' → ∃ w₁, C.Le w w₁ ∧ C.Settled w₁ s.count s'.count ∧
      C.Stores w₁ (s.openScope (some parent)).2 (s'.openScope (some parent')).2

variable {C}

/-- A value that is coupled stays so in every later world. -/
theorem Lawful.value (h : C.Lawful) {w w₁ : C.World} (hle : C.Le w w₁)
    {v v' : Scriptlet.Value} (hv : C.Value w v v') : C.Value w₁ v v' :=
  hv.mono fun _ _ => h.scope hle

/-- Several values stay so, place by place. -/
theorem Lawful.values (h : C.Lawful) {w w₁ : C.World} (hle : C.Le w w₁)
    {vs vs' : List Scriptlet.Value} (hvs : List.Forall₂ (C.Value w) vs vs') :
    List.Forall₂ (C.Value w₁) vs vs' :=
  hvs.imp fun _ _ => h.value hle

/-- Binding the arguments of a call to its parameters respects the coupling, since each of them
does. -/
theorem Lawful.defineAll (h : C.Lawful) {w : C.World} {i i' : ScopeId}
    (hscope : C.Settled w i i') (params : List Token) {args args' : List Scriptlet.Value}
    (hargs : List.Forall₂ (C.Value w) args args') {s s' : Scopes} (hs : C.Stores w s s') :
    C.Stores w (s.defineAll i params args) (s'.defineAll i' params args') := by
  unfold Scopes.defineAll
  induction params generalizing s s' args args' with
  | nil => exact hs
  | cons param params ih =>
      cases hargs with
      | nil => exact hs
      | cons hv hargs => exact ih hargs (h.define param.lexeme hs hscope hv)

end Coupling

/-! ### Machines -/

/-- The machine with a new scope for a body, in which parameters are bound to arguments. The
machine is not in it yet. -/
def Machine.opened (m : Machine) (parent : ScopeId) (params : List Token) (args : List Value) :
    Machine :=
  { m with scopes :=
      (m.scopes.openScope (some parent)).2.defineAll m.scopes.count params args }

/-- Running a body in a new scope is going in, running it, and coming back. -/
theorem Machine.execIn_opened (n : Nat) (parent : ScopeId) (params : List Token)
    (args : List Value) (body : List Stmt) (m : Machine) :
    execIn (n + 1) m.scopes.count body (m.opened parent params args)
      = (execAll n body (m.inside parent params args)).mapMachine (·.enter m.current) := rfl

/-- Machines that differ in their scopes and their journals, as the coupling says, and in
nothing else. They are in the scopes `i` and `i'`. -/
def Machine.Coupled (C : Coupling) (w : C.World) (i i' : ScopeId) (m m' : Machine) : Prop :=
  C.Scope w i i' ∧ m.current = i ∧ ∃ scopes journal, C.Stores w m.scopes scopes ∧
    C.Journals m.journal journal ∧ m' = { m with scopes, current := i', journal }

namespace Machine.Coupled

variable {C : Coupling} {w : C.World} {i i' : ScopeId} {m m' : Machine}

/-- The scopes of the two machines correspond. -/
theorem scope (h : m.Coupled C w i i' m') : C.Scope w i i' := h.1

/-- The first machine is in the first of the two scopes. -/
theorem current_eq (h : m.Coupled C w i i' m') : m.current = i := h.2.1

/-- The second machine is in the second one. -/
theorem current_eq' (h : m.Coupled C w i i' m') : m'.current = i' := by
  obtain ⟨-, -, scopes, journal, -, -, rfl⟩ := h
  rfl

/-- The stores of the two machines correspond. -/
theorem stores (h : m.Coupled C w i i' m') : C.Stores w m.scopes m'.scopes := by
  obtain ⟨-, -, scopes, journal, hstores, -, rfl⟩ := h
  exact hstores

/-- Journals play no part in a coupling, so anything may be noted. -/
theorem note (hC : C.Lawful) (h : m.Coupled C w i i' m') (record : Record) :
    (m.note record).Coupled C w i i' (m'.note record) := by
  obtain ⟨hscope, hcurrent, scopes, journal, hstores, hjournals, rfl⟩ := h
  exact ⟨hscope, hcurrent, scopes, _, hstores, hC.note record hjournals, rfl⟩

/-- Coupled machines may go to corresponding scopes. -/
theorem enter (h : m.Coupled C w i i' m') {j j' : ScopeId} (hscope : C.Scope w j j') :
    (m.enter j).Coupled C w j j' (m'.enter j') := by
  obtain ⟨-, -, scopes, journal, hstores, hjournals, rfl⟩ := h
  exact ⟨hscope, rfl, scopes, journal, hstores, hjournals, rfl⟩

/-- Coupled machines may change their scopes alike. -/
theorem change (h : m.Coupled C w i i' m') {s s' : Scopes} {w₁ : C.World}
    (hscope : C.Scope w₁ i i') (hstores : C.Stores w₁ s s') :
    Machine.Coupled C w₁ i i' { m with scopes := s } { m' with scopes := s' } := by
  obtain ⟨-, hcurrent, scopes, journal, -, hjournals, rfl⟩ := h
  exact ⟨hscope, hcurrent, s', journal, hstores, hjournals, rfl⟩

/-- A name is looked up in corresponding scopes, and what is found is coupled. -/
theorem get? (hC : C.Lawful) (h : m.Coupled C w i i' m') (name : Symbol) :
    (m.get? name).Rel (C.Value w) (m'.get? name) := by
  unfold Machine.get?
  rw [h.current_eq, h.current_eq']
  exact hC.get name h.stores h.scope

/-- The scopes that bind a name correspond and are settled, so that it may be assigned to there. -/
theorem owner? (hC : C.Lawful) (h : m.Coupled C w i i' m') (name : Symbol) :
    (m.owner? name).Rel (C.Settled w) (m'.owner? name) := by
  unfold Machine.owner?
  rw [h.current_eq, h.current_eq']
  exact hC.resolve name h.stores h.scope

/-- Declaring a name keeps machines coupled in scopes that are settled. -/
theorem define (hC : C.Lawful) (h : m.Coupled C w i i' m') (hsettled : C.Settled w i i')
    (name : Symbol) {v v' : Value} (hv : C.Value w v v') :
    (m.define name v).Coupled C w i i' (m'.define name v') := by
  have hdefined := hC.define name h.stores hsettled hv
  rw [← h.current_eq, ← h.current_eq'] at hdefined
  exact h.change h.scope hdefined

/-- So does assigning to a name where it was found. -/
theorem assignAt (hC : C.Lawful) (h : m.Coupled C w i i' m') {owner owner' : ScopeId}
    (howner : C.Settled w owner owner') (name : Symbol) {v v' : Value} (hv : C.Value w v v') :
    (m.assignAt owner name v).Coupled C w i i' (m'.assignAt owner' name v') :=
  h.change h.scope (hC.assign name h.stores howner hv)

/-- Function values that are made in coupled machines correspond if their code does. -/
theorem makeCallable (h : m.Coupled C w i i' m') (decl : FunctionDef) :
    C.Value w (m.makeCallable (.user decl m.current)).1
        (m'.makeCallable (.user decl m'.current)).1 ∧
      (m.makeCallable (.user decl m.current)).2.Coupled C w i i'
        (m'.makeCallable (.user decl m'.current)).2 := by
  rw [h.current_eq, h.current_eq']
  obtain ⟨hscope, hcurrent, scopes, journal, hstores, hjournals, rfl⟩ := h
  exact ⟨.user hscope, hscope, hcurrent, scopes, journal, hstores, hjournals, rfl⟩

/-- A host function sees of its arguments what they look like, and no scope. -/
theorem run (h : m.Coupled C w i i' m') (op : Native) {args args' : List Value}
    (hargs : List.Forall₂ (C.Value w) args args') :
    Value.Replies (C.Value w) (op.run args m).1 (op.run args' m').1 ∧
      (op.run args m).2.Coupled C w i i' (op.run args' m').2 := by
  obtain ⟨hscope, hcurrent, scopes, journal, hstores, hjournals, rfl⟩ := h
  obtain ⟨hreply, hmachine⟩ := (Value.resemblance_coupled (C.Scope w)).run op hargs m
  obtain ⟨input, output, generator, clock, hrun⟩ := Native.run_machine op args m
  rw [Native.blind_run op args' m, ← hmachine, hrun]
  exact ⟨hreply, hscope, hcurrent, scopes, journal, hstores, hjournals, rfl⟩

/-- The way into new scopes inside corresponding ones. -/
theorem inside (hC : C.Lawful) (h : m.Coupled C w i i' m') {parent parent' : ScopeId}
    (hparent : C.Scope w parent parent') (params : List Token) {args args' : List Value}
    (hargs : List.Forall₂ (C.Value w) args args') :
    ∃ w₁ j j', C.Le w w₁ ∧ C.Settled w₁ j j' ∧
      (m.inside parent params args).Coupled C w₁ j j' (m'.inside parent' params args') := by
  obtain ⟨w₁, hle, hsettled, hstores⟩ := hC.openScope h.stores hparent
  refine ⟨w₁, m.scopes.count, m'.scopes.count, hle, hsettled, ?_⟩
  have hdefined := hC.defineAll hsettled params (hC.values hle hargs) hstores
  exact (h.change (hC.scope hle h.scope) hdefined).enter (hC.of_settled hsettled)

end Machine.Coupled

/-! ### Outcomes -/

/-- Outcomes of the same sort, the same error if there is one, coupled machines in a world that
is later than `w`, and results as `A` says. -/
inductive Outcome.Coupled {α : Type} (C : Coupling) (w : C.World) (i i' : ScopeId)
    (A : C.World → α → α → Prop) : Outcome α → Outcome α → Prop where
  | done {w₁ : C.World} {v v' : α} {m m' : Machine} : C.Le w w₁ → A w₁ v v' →
      m.Coupled C w₁ i i' m' → Outcome.Coupled C w i i' A (.done v m) (.done v' m')
  | failed {w₁ : C.World} {e : RuntimeError} {m m' : Machine} : C.Le w w₁ →
      m.Coupled C w₁ i i' m' → Outcome.Coupled C w i i' A (.failed e m) (.failed e m')
  | starved : Outcome.Coupled C w i i' A .starved .starved

namespace Outcome.Coupled

variable {α β : Type} {C : Coupling} {w w₁ : C.World} {i i' j j' : ScopeId}
  {A : C.World → α → α → Prop} {B : C.World → β → β → Prop} {x x' : Outcome α}

/-- What is coupled from a later world on is coupled. -/
theorem later (hC : C.Lawful) (hle : C.Le w w₁) (hx : x.Coupled C w₁ i i' A x') :
    x.Coupled C w i i' A x' := by
  cases hx with
  | done hle' hv hm => exact .done (hC.trans hle hle') hv hm
  | failed hle' hm => exact .failed (hC.trans hle hle') hm
  | starved => exact .starved

/-- The rule for two steps in a row. -/
theorem andThen (hC : C.Lawful) {f f' : α → Machine → Outcome β}
    (hx : x.Coupled C w i i' A x')
    (hf : ∀ w₁ v v' m m', C.Le w w₁ → A w₁ v v' → m.Coupled C w₁ i i' m' →
      (f v m).Coupled C w₁ i i' B (f' v' m')) :
    (x.andThen f).Coupled C w i i' B (x'.andThen f') := by
  cases hx with
  | done hle hv hm => exact (hf _ _ _ _ _ hle hv hm).later hC hle
  | failed hle hm => exact .failed hle hm
  | starved => exact .starved

/-- Both runs come back to corresponding scopes. -/
theorem enter (hC : C.Lawful) (hscope : C.Scope w i i') (hx : x.Coupled C w j j' A x') :
    (x.mapMachine (·.enter i)).Coupled C w i i' A (x'.mapMachine (·.enter i')) := by
  cases hx with
  | done hle hv hm => exact .done hle hv (hm.enter (hC.scope hle hscope))
  | failed hle hm => exact .failed hle (hm.enter (hC.scope hle hscope))
  | starved => exact .starved

/-- A result that is found without a change. -/
theorem result (hC : C.Lawful) {v v' : α} {m m' : Machine} (hv : A w v v')
    (hm : m.Coupled C w i i' m') : Outcome.Coupled C w i i' A (.done v m) (.done v' m') :=
  .done (hC.refl w) hv hm

/-- An error that is met without a change. -/
theorem error (hC : C.Lawful) (e : RuntimeError) {m m' : Machine}
    (hm : m.Coupled C w i i' m') : Outcome.Coupled C w i i' A (.failed e m) (.failed e m') :=
  .failed (hC.refl w) hm

/-- An operation that gives a value or a fault. -/
theorem ofExcept (hC : C.Lawful) (token : Token) {reply reply' : Except Fault Value}
    {m m' : Machine} (hreply : Value.Replies (C.Value w) reply reply')
    (hm : m.Coupled C w i i' m') :
    (Outcome.ofExcept token reply m).Coupled C w i i' C.Value
      (Outcome.ofExcept token reply' m') := by
  cases hreply with
  | ok hv => exact .result hC hv hm
  | error fault => exact .error hC _ hm

end Outcome.Coupled

/-! ### The evaluator -/

namespace Coupling

variable {C : Coupling}

/-- Statements that ended in the same way. -/
abbrev Flow (C : Coupling) (w : C.World) : Scriptlet.Flow → Scriptlet.Flow → Prop :=
  Flow.Coupled (C.Scope w)

mutual

/-- An expression ends in the same way on coupled machines, whatever scopes they are in. The
induction is on the steps, and there is one case for each kind of expression. -/
theorem eval_coupled (h : C.Lawful) : ∀ n {e w i i' m m'}, m.Coupled C w i i' m' →
    (eval n e m).Coupled C w i i' C.Value (eval n e m')
  | 0, _, _, _, _, _, _, _ => .starved
  | n + 1, e, w, i, i', m, m', hm => by
    have hV (w : C.World) := Value.resemblance_coupled (C.Scope w)
    cases e with
    | literal value => exact .result h ((hV w).ofLiteral value) hm
    | group inner => exact eval_coupled h n hm
    | unary op operand =>
        refine (eval_coupled h n hm).andThen h fun w v v' m m' _ hv hm => ?_
        exact .ofExcept h op ((hV w).unary op.kind hv) hm
    | binary left op right =>
        refine (eval_coupled h n hm).andThen h fun w₁ v v' m m' _ hv hm => ?_
        refine (eval_coupled h n hm).andThen h fun w₂ u u' m m' hle hu hm => ?_
        exact .ofExcept h op ((hV w₂).binary op.kind (h.value hle hv) hu) hm
    | logical left op right =>
        refine (eval_coupled h n hm).andThen h fun w v v' m m' _ hv hm => ?_
        rw [Operator.decides_look op.kind ((hV w).look hv)]
        split
        · exact .result h hv hm
        · exact eval_coupled h n hm
    | get name =>
        have hget := hm.get? h name.lexeme
        simp only [eval]
        generalize m.get? name.lexeme = found, m'.get? name.lexeme = found' at hget
        cases hget with
        | none => exact .error h _ hm
        | some hv => exact .result h hv hm
    | set name value =>
        refine (eval_coupled h n hm).andThen h fun w v v' m m' _ hv hm => ?_
        have howner := hm.owner? h name.lexeme
        generalize m.owner? name.lexeme = owner, m'.owner? name.lexeme = owner' at howner
        cases howner with
        | none => exact .error h _ hm
        | some howner => exact .result h hv (hm.assignAt h howner name.lexeme hv)
    | call callee paren args =>
        refine (eval_coupled h n hm).andThen h fun w₁ v v' m m' _ hv hm => ?_
        refine (evalAll_coupled h n hm).andThen h fun w₂ vs vs' m m' hle hvs hm => ?_
        -- The value was found before the arguments, and corresponds still.
        have hv := h.value hle hv
        cases v with
        | callable f =>
            obtain ⟨f', rfl, harity, htext⟩ := hv.callable
            dsimp only
            rw [hvs.length_eq, harity, htext]
            split
            · exact invoke_coupled h n hv hvs (hm.note h _)
            · exact .error h _ hm
        | _ =>
            cases hv
            exact .error h _ hm

/-- Several expressions, in worlds that are each later than the one before. -/
theorem evalAll_coupled (h : C.Lawful) : ∀ n {es w i i' m m'}, m.Coupled C w i i' m' →
    (evalAll n es m).Coupled C w i i' (fun w => List.Forall₂ (C.Value w)) (evalAll n es m')
  | 0, _, _, _, _, _, _, _ => .starved
  | n + 1, [], _, _, _, _, _, hm => .result h .nil hm
  | n + 1, e :: es, w, i, i', m, m', hm => by
    refine (eval_coupled h n hm).andThen h fun w₁ v v' m m' _ hv hm => ?_
    refine (evalAll_coupled h n hm).andThen h fun w₂ vs vs' m m' hle hvs hm => ?_
    exact .result h (.cons (h.value hle hv) hvs) hm

/-- Coupled functions do the same when they are called. The bodies run in new scopes inside the ones
that the functions remember, which correspond. -/
theorem invoke_coupled (h : C.Lawful) : ∀ n {f f' paren args args' w i i' m m'},
    C.Value w (.callable f) (.callable f') → List.Forall₂ (C.Value w) args args' →
    m.Coupled C w i i' m' →
    (invoke n f paren args m).Coupled C w i i' C.Value (invoke n f' paren args' m')
  | 0, _, _, _, _, _, _, _, _, _, _, _, _, _ => .starved
  | n + 1, f, f', paren, args, args', w, i, i', m, m', hf, hargs, hm => by
    cases hf with
    | plain hplain => exact absurd rfl (hplain f)
    | @native _ _ _ op =>
        obtain ⟨hreply, hmachine⟩ := hm.run op hargs
        exact .ofExcept h paren hreply hmachine
    | @user _ decl closure closure' hclosure =>
        refine (execIn_coupled h n decl.params hclosure hargs hm).andThen h ?_
        exact fun w flow flow' m m' _ hflow hm => .result h hflow.result hm

/-- A body runs in two new scopes that come to correspond in a later world. They are settled from
the start, so that the body may declare names. -/
theorem execIn_coupled (h : C.Lawful) : ∀ n {body parent parent' args args' w i i'}
    {m m' : Machine} (params : List Token), C.Scope w parent parent' →
    List.Forall₂ (C.Value w) args args' → m.Coupled C w i i' m' →
    (execIn n m.scopes.count body (m.opened parent params args)).Coupled C w i i' C.Flow
      (execIn n m'.scopes.count body (m'.opened parent' params args'))
  | 0, _, _, _, _, _, _, _, _, _, _, _, _, _, _ => .starved
  | n + 1, body, parent, parent', args, args', w, i, i', m, m', params, hparent, hargs, hm => by
    obtain ⟨w₁, j, j', hle, hsettled, hinside⟩ := hm.inside h hparent params hargs
    rw [Machine.execIn_opened, Machine.execIn_opened, hm.current_eq, hm.current_eq']
    have hrun := execAll_coupled h n (fun (s : Stmt) (_ : s ∈ body) => .inr hsettled) hinside
    exact (hrun.enter h (h.scope hle hm.scope)).later h hle

/-- Statements in a row. Each may be quiet for itself, if the scope is not settled. -/
theorem execAll_coupled (h : C.Lawful) : ∀ n {body w i i' m m'},
    (∀ s ∈ body, s.Quiet ∨ C.Settled w i i') → m.Coupled C w i i' m' →
    (execAll n body m).Coupled C w i i' C.Flow (execAll n body m')
  | 0, _, _, _, _, _, _, _, _ => .starved
  | n + 1, [], _, _, _, _, _, _, hm => .result h .normal hm
  | n + 1, s :: rest, w, i, i', m, m', hbody, hm => by
    refine (exec_coupled h n (hbody s (by simp)) hm).andThen h ?_
    intro w₁ flow flow' m m' hle hflow hm
    cases hflow with
    | normal =>
        refine execAll_coupled h n (fun s' hs' => ?_) hm
        exact (hbody s' (by simp [hs'])).imp_right (h.settled hle)
    | returned hv => exact .result h (.returned hv) hm

/-- A statement ends in the same way, if it declares nothing or the scope is settled. -/
theorem exec_coupled (h : C.Lawful) : ∀ n {s w i i' m m'}, s.Quiet ∨ C.Settled w i i' →
    m.Coupled C w i i' m' → (exec n s m).Coupled C w i i' C.Flow (exec n s m')
  | 0, _, _, _, _, _, _, _, _ => .starved
  | n + 1, s, w, i, i', m, m', hs, hm => by
    have hV (w : C.World) := Value.resemblance_coupled (C.Scope w)
    cases s with
    | expression value =>
        exact (eval_coupled h n hm).andThen h fun w v v' m m' _ _ hm => .result h .normal hm
    | declare name init =>
        have hsettled := hs.resolve_left nofun
        refine (evalOptional_coupled h n hm).andThen h fun w v v' m m' hle hv hm => ?_
        exact .result h .normal (hm.define h (h.settled hle hsettled) name.lexeme hv)
    | block body =>
        have hcurrent : C.Scope w m.current m'.current := by
          rw [hm.current_eq, hm.current_eq']
          exact hm.scope
        exact execIn_coupled h n [] hcurrent .nil hm
    | branch condition yes no =>
        refine (eval_coupled h n hm).andThen h fun w₁ v v' m m' hle hv hm => ?_
        rw [Value.isTruthy_eq_of_look ((hV w₁).look hv)]
        -- The branches declare nothing either, unless declarations are welcome.
        have hsettled : C.Settled w i i' → C.Settled w₁ i i' := h.settled hle
        split
        · refine exec_coupled h n (hs.imp (fun hquiet => ?_) hsettled) hm
          cases hquiet with
          | branch hyes _ => exact hyes
          | branchOnly hyes => exact hyes
        · cases no with
          | none => exact .result h .normal hm
          | some no =>
              refine exec_coupled h n (hs.imp (fun hquiet => ?_) hsettled) hm
              cases hquiet with
              | branch _ hno => exact hno
    | loop condition body =>
        refine repeatWhile_coupled h n (hs.imp_left fun hquiet => ?_) hm
        cases hquiet with
        | loop hbody => exact hbody
    | function name params body =>
        have hsettled := hs.resolve_left nofun
        have hnoted := hm.note h (.declaring name.name params.length)
        obtain ⟨hf, hmade⟩ := hnoted.makeCallable ⟨name, params, body⟩
        exact .result h .normal (hmade.define h hsettled name.lexeme hf)
    | giveBack word result =>
        refine (evalOptional_coupled h n hm).andThen h fun w v v' m m' _ hv hm => ?_
        exact .result h (.returned hv) hm

/-- A value that may be missing. -/
theorem evalOptional_coupled (h : C.Lawful) : ∀ n {e w i i' m m'}, m.Coupled C w i i' m' →
    (evalOptional n e m).Coupled C w i i' C.Value (evalOptional n e m')
  | 0, _, _, _, _, _, _, _ => .starved
  | _ + 1, none, _, _, _, _, _, hm => .result h (Value.resemblance_coupled _).nil hm
  | n + 1, some _, _, _, _, _, _, hm => eval_coupled h n hm

/-- Rounds of a loop, each in a world that is later than the one before. -/
theorem repeatWhile_coupled (h : C.Lawful) : ∀ n {condition body w i i' m m'},
    body.Quiet ∨ C.Settled w i i' → m.Coupled C w i i' m' →
    (repeatWhile n condition body m).Coupled C w i i' C.Flow (repeatWhile n condition body m')
  | 0, _, _, _, _, _, _, _, _, _ => .starved
  | n + 1, condition, body, w, i, i', m, m', hbody, hm => by
    refine (eval_coupled h n hm).andThen h fun w₁ v v' m m' hle hv hm => ?_
    rw [Value.isTruthy_eq_of_look ((Value.resemblance_coupled _).look hv)]
    have hbody := hbody.imp_right (h.settled hle)
    split
    · refine (exec_coupled h n hbody hm).andThen h fun w₂ flow flow' m m' hle hflow hm => ?_
      cases hflow with
      | normal => exact repeatWhile_coupled h n (hbody.imp_right (h.settled hle)) hm
      | returned hv => exact .result h (.returned hv) hm
    · exact .result h .normal hm

end

/-- Whole programs end in the same way on coupled machines. -/
theorem runProgram_coupled (h : C.Lawful) (n : Nat) {program : Program} {w : C.World}
    {i i' : ScopeId} {m m' : Machine} (hsettled : C.Settled w i i')
    (hm : m.Coupled C w i i' m') :
    (runProgram n program m).Coupled C w i i' (fun _ => Eq) (runProgram n program m') := by
  refine (execAll_coupled h n (fun _ _ => .inr hsettled) hm).andThen h ?_
  intro w₁ flow flow' m m' _ hflow hm
  cases hflow with
  | normal => exact .result h rfl hm
  | @returned v v' hv =>
      dsimp only
      rw [Value.text_eq_of_look ((Value.resemblance_coupled _).look hv)]
      exact .result h rfl (hm.note h _)

end Coupling

end Scriptlet
