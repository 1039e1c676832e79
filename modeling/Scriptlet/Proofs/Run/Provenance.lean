import Scriptlet.Proofs.Run.Coupling
import Scriptlet.Proofs.Run.Environments

/-!
# `Scriptlet.Proofs.Run.Provenance`: where function values come from

A function value is made when a function is declared, and it is copied from then on: into variables
and out of them, as an argument, as a result, as an operand of a logical operator. A `Ledger` keeps
book on this while a program runs. Each execution of a declaration has a number. Each name in each
scope, and each value that an expression has, has an `Origin`: the execution that it was copied
from, if any.

The origin of a value is found by following copies, and by nothing else: it is never read off the
value itself (`evalTrack`, `execTrack` and their like). What identities have to do with it is what
is proved here:

* `Ledger.Sound`: all that the book says of the values that appeared is true.
* `Ledger.Fits`: the same for the values that names are bound to.
* `eval_tracks`, `execAll_tracks` and the lemmas between them: the book stays true along all runs.
* `Ledger.Sound.tellsApart`: so function values are equal exactly if they were copied from the same
  execution.
-/

set_option autoImplicit false

namespace Scriptlet

/-! ### The book -/

/-- The number of the execution that a value was copied from. Values that are no functions have
none. -/
abbrev Origin := Option Nat

/-- What is known of copies. -/
structure Ledger where
  /-- The functions that were made, in the order of the executions that made them. -/
  executions : List Callable
  /-- The origins of what names are bound to. -/
  origins : ScopeId → Nat × Nat → Origin
  /-- The values that expressions had, each with its origin. -/
  seen : List (Value × Origin)

namespace Ledger

/-- Nothing has happened. -/
def empty : Ledger := ⟨[], fun _ _ => none, []⟩

/-- A name is bound to a value with this origin. -/
def bind (l : Ledger) (id : ScopeId) (name : Symbol) (o : Origin) : Ledger :=
  { l with origins := fun i key => if i = id ∧ key = name.issue then o else l.origins i key }

/-- Parameters are bound to arguments with these origins. -/
def bindAll (l : Ledger) (id : ScopeId) (params : List Token) (os : List Origin) : Ledger :=
  (params.zip os).foldl (fun l pair => l.bind id pair.1.lexeme pair.2) l

/-- A declaration is executed, and its name is bound to the function that it makes. -/
def execute (l : Ledger) (f : Callable) (id : ScopeId) (name : Symbol) : Ledger :=
  { l with executions := l.executions ++ [f] }.bind id name (some l.executions.length)

/-- A value appears. -/
def see (l : Ledger) (v : Value) (o : Origin) : Ledger := { l with seen := (v, o) :: l.seen }

end Ledger

/-- The value of an expression appears, if it has one. -/
def Outcome.appearing (x : Outcome Value) (t : Origin × Ledger) : Origin × Ledger :=
  match x with
  | .done v _ => (t.1, t.2.see v t.1)
  | .failed _ _ | .starved => t

/-- Goes on with the book if the first step is done. -/
def Outcome.tracked {α β γ : Type} [Inhabited γ] (x : Outcome α) (first : β × Ledger)
    (next : α → Machine → β → Ledger → γ × Ledger) : γ × Ledger :=
  match x with
  | .done v m => next v m first.1 first.2
  | .failed _ _ | .starved => (default, first.2)

/-- The origin of what a native function gives, for the origins of its arguments. Only a host gives
back an argument. -/
def Native.passed (op : Native) (args : List Value) (os : List Origin) : Origin :=
  match op with
  | .host function =>
    match function (args.map Value.look) with
    | .ok (.argument place) => os[place]?.getD none
    | _ => none
  | _ => none

mutual

/-- The origin of the value of an expression, and the book afterwards. -/
def evalTrack : Nat → Expr → Machine → Ledger → Origin × Ledger
  | 0, _, _, l => (none, l)
  | n + 1, e, m, l =>
    (eval (n + 1) e m).appearing <|
      match e with
      | .literal _ => (none, l)
      | .group inner => evalTrack n inner m l
      | .unary _ operand => (eval n operand m).tracked (evalTrack n operand m l) fun _ _ _ l =>
        (none, l)
      | .binary left _ right =>
        (eval n left m).tracked (evalTrack n left m l) fun _ m _ l =>
          (eval n right m).tracked (evalTrack n right m l) fun _ _ _ l => (none, l)
      | .logical left op right =>
        (eval n left m).tracked (evalTrack n left m l) fun v m o l =>
          if Operator.decides op.kind v then (o, l) else evalTrack n right m l
      | .get name =>
        match m.owner? name.lexeme with
        | some owner => (l.origins owner name.lexeme.issue, l)
        | none => (none, l)
      | .set name value =>
        (eval n value m).tracked (evalTrack n value m l) fun _ m o l =>
          match m.owner? name.lexeme with
          | some owner => (o, l.bind owner name.lexeme o)
          | none => (none, l)
      | .call callee _ args =>
        (eval n callee m).tracked (evalTrack n callee m l) fun v m _ l =>
          (evalAll n args m).tracked (evalAllTrack n args m l) fun vs m os l =>
            match v with
            | .callable f =>
              if vs.length = f.arity then
                invokeTrack n f vs os (m.note (.calling f.text vs.length)) l
              else (none, l)
            | _ => (none, l)

/-- The origins of the values of several expressions. -/
def evalAllTrack : Nat → List Expr → Machine → Ledger → List Origin × Ledger
  | 0, _, _, l => ([], l)
  | _ + 1, [], _, l => ([], l)
  | n + 1, e :: es, m, l =>
    (eval n e m).tracked (evalTrack n e m l) fun _ m o l =>
      (evalAll n es m).tracked (evalAllTrack n es m l) fun _ _ os l => (o :: os, l)

/-- The origin of what a call gives back. -/
def invokeTrack : Nat → Callable → List Value → List Origin → Machine → Ledger → Origin × Ledger
  | 0, _, _, _, _, l => (none, l)
  | n + 1, f, args, os, m, l =>
    match f.code with
    | .native _ _ op => (op.passed args os, l)
    | .user decl closure =>
      execInTrack n m.scopes.count decl.body (m.opened closure decl.params args)
        (l.bindAll m.scopes.count decl.params os)

/-- The ledger behind a body run in the scope `scope`, and the origin of what it gives back. -/
def execInTrack : Nat → ScopeId → List Stmt → Machine → Ledger → Origin × Ledger
  | 0, _, _, _, l => (none, l)
  | n + 1, scope, body, m, l => execAllTrack n body (m.enter scope) l

/-- The origin of what statements give back, if they give back anything. -/
def execAllTrack : Nat → List Stmt → Machine → Ledger → Origin × Ledger
  | 0, _, _, l => (none, l)
  | _ + 1, [], _, l => (none, l)
  | n + 1, s :: rest, m, l =>
    (exec n s m).tracked (execTrack n s m l) fun flow m o l =>
      match flow with
      | .normal => execAllTrack n rest m l
      | .returned _ => (o, l)

/-- The same of one statement. -/
def execTrack : Nat → Stmt → Machine → Ledger → Origin × Ledger
  | 0, _, _, l => (none, l)
  | n + 1, s, m, l =>
    match s with
    | .expression value => (eval n value m).tracked (evalTrack n value m l) fun _ _ _ l => (none, l)
    | .declare name init =>
      (evalOptional n init m).tracked (evalOptionalTrack n init m l) fun _ m o l =>
        (none, l.bind m.current name.lexeme o)
    | .block body => execInTrack n m.scopes.count body (m.opened m.current [] []) l
    | .branch condition yes no =>
      (eval n condition m).tracked (evalTrack n condition m l) fun v m _ l =>
        if v.isTruthy then execTrack n yes m l
        else
          match no with
          | some s => execTrack n s m l
          | none => (none, l)
    | .loop condition body => repeatWhileTrack n condition body m l
    | .function name params body =>
      (none, l.execute ⟨m.identities, .user ⟨name, params, body⟩ m.current⟩ m.current name.lexeme)
    | .giveBack _ result =>
      (evalOptional n result m).tracked (evalOptionalTrack n result m l) fun _ _ o l => (o, l)

/-- The same of an expression that may be left out: there is no origin then. -/
def evalOptionalTrack : Nat → Option Expr → Machine → Ledger → Origin × Ledger
  | 0, _, _, l => (none, l)
  | _ + 1, none, _, l => (none, l)
  | n + 1, some e, m, l => evalTrack n e m l

/-- The same of a loop: each round starts from the ledger of the round before. -/
def repeatWhileTrack : Nat → Expr → Stmt → Machine → Ledger → Origin × Ledger
  | 0, _, _, _, l => (none, l)
  | n + 1, condition, body, m, l =>
    (eval n condition m).tracked (evalTrack n condition m l) fun v m _ l =>
      if v.isTruthy then
        (exec n body m).tracked (execTrack n body m l) fun flow m o l =>
          match flow with
          | .normal => repeatWhileTrack n condition body m l
          | .returned _ => (o, l)
      else (none, l)

end

/-! ### What the book says of values -/

namespace Ledger

variable {l l₁ l₂ : Ledger}

/-- The book is right about a value: a function is the one that the execution made, and anything
else has no origin. -/
inductive Accounts (l : Ledger) : Value → Origin → Prop where
  | plain {v : Value} : (∀ f, v ≠ .callable f) → Accounts l v none
  | callable {f : Callable} {k : Nat} : l.executions[k]? = some f →
      Accounts l (.callable f) (some k)

/-- What was executed stays in the book. -/
def Grows (l l₁ : Ledger) : Prop := l.executions <+: l₁.executions

/-- Nothing was executed in between. -/
theorem Grows.refl (l : Ledger) : l.Grows l := List.prefix_rfl

/-- One run behind another. -/
theorem Grows.trans (h : l.Grows l₁) (h' : l₁.Grows l₂) : l.Grows l₂ := List.IsPrefix.trans h h'

/-- Binding a name executes no declaration. -/
theorem grows_bind (l : Ledger) (id : ScopeId) (name : Symbol) (o : Origin) :
    l.Grows (l.bind id name o) := List.prefix_rfl

/-- Binding parameters executes none either. -/
theorem grows_bindAll (l : Ledger) (id : ScopeId) (params : List Token) (os : List Origin) :
    l.Grows (l.bindAll id params os) := by
  unfold bindAll
  induction params.zip os generalizing l with
  | nil => exact .refl l
  | cons pair pairs ih => exact (l.grows_bind id pair.1.lexeme pair.2).trans (ih _)

/-- Neither does the appearance of a value. -/
theorem grows_see (l : Ledger) (v : Value) (o : Origin) : l.Grows (l.see v o) := List.prefix_rfl

/-- A declaration that is executed is written behind the others. -/
theorem grows_execute (l : Ledger) (f : Callable) (id : ScopeId) (name : Symbol) :
    l.Grows (l.execute f id name) := List.prefix_append _ _

/-- What the book is right about, it stays right about. Numbers of executions are never given
again. -/
theorem Accounts.mono (hgrows : l.Grows l₁) {v : Value} {o : Origin} (h : l.Accounts v o) :
    l₁.Accounts v o := by
  cases h with
  | plain hv => exact .plain hv
  | callable hf =>
      obtain ⟨hlt, hget⟩ := List.getElem?_eq_some_iff.1 hf
      exact .callable ((List.prefix_iff_getElem?.1 hgrows _ hlt).trans (congrArg some hget))

/-- All that appeared is accounted for, and the identity of a function is the number of the
execution that made it. -/
structure Sound (l : Ledger) : Prop where
  identity {k : Nat} {f : Callable} : l.executions[k]? = some f → f.identity = k
  seen {v : Value} {o : Origin} : (v, o) ∈ l.seen → l.Accounts v o

/-- All that is bound is accounted for, and there are as many identities as executions. -/
structure Fits (l : Ledger) (m : Machine) : Prop extends l.Sound where
  count : l.executions.length = m.identities
  bound {name : Symbol} {i : ScopeId} {v : Value} : m.scopes.valueAt name i = some v →
    l.Accounts v (l.origins i name.issue)

namespace Fits

variable {m m₁ : Machine}

/-- Only the scopes and the identities matter. -/
theorem of_eq (h : l.Fits m) (hscopes : m₁.scopes = m.scopes)
    (hidentities : m₁.identities = m.identities) : l.Fits m₁ where
  toSound := h.toSound
  count := h.count.trans hidentities.symm
  bound hv := h.bound (hscopes ▸ hv)

/-- A value that is accounted for may appear. -/
theorem see (h : l.Fits m) {v : Value} {o : Origin} (hv : l.Accounts v o) : (l.see v o).Fits m where
  identity := h.identity
  seen {w o'} hseen := by
    rcases List.mem_cons.1 hseen with hnew | hold
    · cases hnew
      exact hv.mono (l.grows_see v o)
    · exact (h.seen hold).mono (l.grows_see v o)
  count := h.count
  bound hbound := (h.bound hbound).mono (l.grows_see v o)

/-- A host function binds no names and makes no functions. -/
theorem native (h : l.Fits m) (op : Native) (args : List Value) : l.Fits (op.run args m).2 := by
  obtain ⟨input, output, generator, clock, hrun⟩ := Native.run_machine op args m
  rw [hrun]
  exact h.of_eq rfl rfl

/-- A name is bound to a value, in the machine and in the book. -/
theorem bind (h : l.Fits m) {id : ScopeId} {name : Symbol} {v : Value} {f : Scope → Scope}
    {o : Origin} (hf : m.scopes.Gives id name v f) (hv : l.Accounts v o) :
    (l.bind id name o).Fits { m with scopes := ⟨m.scopes.cells.modify id f⟩ } where
  identity := h.identity
  seen hseen := (h.seen hseen).mono (l.grows_bind id name o)
  count := h.count
  bound {x i w} hw := by
    refine Accounts.mono (l.grows_bind id name o) ?_
    show Accounts l w (if i = id ∧ x.issue = name.issue then o else l.origins i x.issue)
    replace hw : (Scopes.mk (m.scopes.cells.modify id f)).valueAt x i = some w := hw
    rw [hf.valueAt_eq] at hw
    -- Under this name the scope has the new value and the book the new origin. Elsewhere nothing
    -- has changed.
    split at hw
    case isTrue hname =>
      obtain ⟨scope, -, rfl⟩ := Option.map_eq_some_iff.1 hw
      rwa [if_pos hname]
    case isFalse hname =>
      rw [if_neg hname]
      exact h.bound hw

/-- A definition, in the machine and in the book. -/
theorem define (h : l.Fits m) {v : Value} {o : Origin} (hv : l.Accounts v o) (id : ScopeId)
    (name : Symbol) : (l.bind id name o).Fits { m with scopes := m.scopes.define id name v } :=
  h.bind (Scopes.gives_define m.scopes id name v) hv

/-- An assignment, in the scope that binds the name. -/
theorem assignAt (h : l.Fits m) {name : Symbol} {owner : ScopeId}
    (howner : m.owner? name = some owner) {v : Value} {o : Origin} (hv : l.Accounts v o) :
    (l.bind owner name o).Fits (m.assignAt owner name v) :=
  h.bind (Scopes.gives_assign (Scopes.isSome_valueAt_of_resolve howner) v) hv

/-- What a name is bound to is in the book. -/
theorem get? (h : l.Fits m) {name : Symbol} {v : Value} (hv : m.get? name = some v) :
    ∃ owner, m.owner? name = some owner ∧ l.Accounts v (l.origins owner name.issue) := by
  rw [Machine.get?, Scopes.get?_eq_bind] at hv
  obtain ⟨owner, howner, hvalue⟩ := Option.bind_eq_some_iff.1 hv
  exact ⟨owner, howner, h.bound hvalue⟩

/-- A new scope binds nothing. -/
theorem openScope (h : l.Fits m) (parent : Option ScopeId) :
    l.Fits { m with scopes := (m.scopes.openScope parent).2 } where
  toSound := h.toSound
  count := h.count
  bound {x i v} hv := by
    apply h.bound
    simp only [Scopes.valueAt, Scopes.at?_openScope] at hv ⊢
    split at hv
    · simp [Scope.find?] at hv
    · exact hv

/-- The arguments of a call are bound to its parameters in the machine and in the book. -/
theorem defineAll (h : l.Fits m) (id : ScopeId) (params : List Token) {args : List Value}
    {os : List Origin} (hargs : List.Forall₂ l.Accounts args os) :
    (l.bindAll id params os).Fits { m with scopes := m.scopes.defineAll id params args } := by
  -- Parameters, arguments and origins are used up together.
  induction params generalizing l m args os with
  | nil => exact h
  | cons param params ih =>
      cases hargs with
      | nil => exact h
      | cons harg hargs =>
          have hfirst := h.define harg id param.lexeme
          exact ih hfirst (hargs.imp fun v o hv => hv.mono (l.grows_bind id param.lexeme _))

/-- The way into a new scope. -/
theorem opened (h : l.Fits m) (parent : ScopeId) (params : List Token) {args : List Value}
    {os : List Origin} (hargs : List.Forall₂ l.Accounts args os) :
    (l.bindAll m.scopes.count params os).Fits (m.opened parent params args) :=
  (h.openScope (some parent)).defineAll m.scopes.count params hargs

/-- A declaration makes a function that was not there before. -/
theorem execute (h : l.Fits m) (code : Code) (id : ScopeId) (name : Symbol) :
    (l.execute ⟨m.identities, code⟩ id name).Fits { m with
      scopes := m.scopes.define id name (.callable ⟨m.identities, code⟩)
      identities := m.identities + 1 } := by
  have hmade : Fits { l with executions := l.executions ++ [⟨m.identities, code⟩] }
      { m with identities := m.identities + 1 } := by
    have hgrows : l.Grows { l with executions := l.executions ++ [⟨m.identities, code⟩] } :=
      List.prefix_append _ _
    constructor
    · constructor
      · intro k f hf
        replace hf : (l.executions ++ [⟨m.identities, code⟩])[k]? = some f := hf
        rw [List.getElem?_append] at hf
        split at hf
        · exact h.identity hf
        case isFalse hge =>
          -- The new function is the last one.
          have hlt : k - l.executions.length < 1 := (List.getElem?_eq_some_iff.1 hf).1
          obtain rfl : k = l.executions.length := by omega
          simp only [Nat.sub_self, List.getElem?_cons_zero, Option.some.injEq] at hf
          rw [← hf, h.count]
      · intro v o hseen
        exact (h.seen hseen).mono hgrows
    · show (l.executions ++ [_]).length = m.identities + 1
      rw [List.length_append, h.count]
      rfl
    · intro name i v hv
      exact (h.bound hv).mono hgrows
  have hnew : Accounts { l with executions := l.executions ++ [⟨m.identities, code⟩] }
      (.callable ⟨m.identities, code⟩) (some l.executions.length) :=
    .callable (by simp)
  exact hmade.define hnew id name

end Fits

end Ledger

open Ledger (Accounts Fits Sound)

/-- Arguments have their origins place by place, and a missing one has none. -/
theorem Ledger.accounts_getElem? {l : Ledger} {args : List Value} {os : List Origin}
    (hargs : List.Forall₂ l.Accounts args os) (place : Nat) :
    l.Accounts (args[place]?.getD .nil) (os[place]?.getD none) := by
  induction hargs generalizing place with
  | nil => exact .plain fun _ hf => Value.noConfusion hf
  | cons hfirst _ ih =>
      cases place with
      | zero => exact hfirst
      | succ place => exact ih place

/-- What a native function gives has the origin that is passed on. -/
theorem Native.accounts_passed {l : Ledger} {op : Native} {args : List Value} {os : List Origin}
    (hargs : List.Forall₂ l.Accounts args os) {m : Machine} {v : Value}
    (h : (op.run args m).1 = .ok v) : l.Accounts v (op.passed args os) := by
  cases op with
  | host function =>
      replace h : answer function args = .ok v := h
      simp only [passed]
      cases hreply : function (args.map Value.look) with
      | error fault =>
          simp only [answer, hreply] at h
          cases h
      | ok reply =>
          simp only [answer, hreply] at h
          cases reply with
          | constant value =>
              cases h
              exact .plain (Value.ofLiteral_ne_callable value)
          | argument place =>
              cases h
              exact Ledger.accounts_getElem? hargs place
  | _ =>
      refine .plain fun f hf => run_ne_callable (fun p hop => ?_) (hf ▸ h)
      cases hop

/-! ### Runs -/

/-- The book is kept along a run. The origins it has for the result are right as `P` says. -/
structure Tracks {α β : Type} (P : Ledger → α → β → Prop) (l : Ledger) (x : Outcome α)
    (t : β × Ledger) : Prop where
  grows : l.Grows t.2
  sound : t.2.Sound
  ending {m : Machine} : x.machine? = some m → t.2.Fits m
  value {v : α} {m : Machine} : x = .done v m → P t.2 v t.1

namespace Tracks

variable {α β γ δ : Type} {P : Ledger → α → β → Prop} {l l₁ : Ledger} {m : Machine}

/-- A run that is done, if the book grew up to its result and is true there. -/
theorem done (hgrows : l.Grows l₁) (hm : l₁.Fits m) {v : α} {o : β} (hv : P l₁ v o) :
    Tracks P l (.done v m) (o, l₁) where
  grows := hgrows
  sound := hm.toSound
  ending := by
    rintro _ ⟨⟩
    exact hm
  value := by
    rintro _ _ ⟨⟩
    exact hv

/-- A run that fails without a change of the book. -/
theorem failed (hm : l.Fits m) (error : RuntimeError) (o : β) :
    Tracks P l (.failed error m) (o, l) where
  grows := .refl l
  sound := hm.toSound
  ending := by
    rintro _ ⟨⟩
    exact hm
  value := by
    rintro _ _ ⟨⟩

/-- A run without steps enough. What has appeared so far is still accounted for. -/
theorem starved (hl : l.Sound) (o : β) : Tracks P l .starved (o, l) where
  grows := .refl l
  sound := hl
  ending := by
    rintro _ ⟨⟩
  value := by
    rintro _ _ ⟨⟩

/-- An operation that gives a value or a fault, and writes nothing in the book. -/
theorem ofExcept (hm : l.Fits m) (token : Token) {x : Except Fault α} {o : β}
    (hx : ∀ v, x = .ok v → P l v o) : Tracks P l (.ofExcept token x m) (o, l) := by
  cases x with
  | ok v => exact done (.refl l) hm (hx v rfl)
  | error fault => exact failed hm _ o

/-- The rule for two steps in a row. -/
theorem andThen [Inhabited δ] {Q : Ledger → γ → δ → Prop} {x : Outcome α} {t : β × Ledger}
    {next : α → Machine → Outcome γ} {track : α → Machine → β → Ledger → δ × Ledger}
    (hx : Tracks P l x t)
    (hnext : ∀ v m o l₁, l.Grows l₁ → l₁.Fits m → P l₁ v o →
      Tracks Q l₁ (next v m) (track v m o l₁)) :
    Tracks Q l (x.andThen next) (x.tracked t track) := by
  cases x with
  | done v m =>
      have hsecond := hnext v m t.1 t.2 hx.grows (hx.ending rfl) (hx.value rfl)
      exact ⟨hx.grows.trans hsecond.grows, hsecond.sound, hsecond.ending, hsecond.value⟩
  | failed error m => exact ⟨hx.grows, hx.sound, hx.ending, nofun⟩
  | starved => exact ⟨hx.grows, hx.sound, hx.ending, nofun⟩

/-- What was bound before the run makes no difference. -/
theorem after {x : Outcome α} {t : β × Ledger} (h : Tracks P l₁ x t) (hgrows : l.Grows l₁) :
    Tracks P l x t :=
  ⟨hgrows.trans h.grows, h.sound, h.ending, h.value⟩

/-- The value of an expression appears. -/
theorem appearing {x : Outcome Value} {t : Origin × Ledger} (h : Tracks Accounts l x t) :
    Tracks Accounts l x (x.appearing t) := by
  cases x with
  | failed error m => exact h
  | starved => exact h
  | done v m =>
      have hv : t.2.Accounts v t.1 := h.value rfl
      have hgrows := t.2.grows_see v t.1
      exact done (h.grows.trans hgrows) ((h.ending rfl).see hv) (hv.mono hgrows)

/-- The way back to the scope before. -/
theorem enter {x : Outcome α} {t : β × Ledger} (h : Tracks P l x t) (scope : ScopeId) :
    Tracks P l (x.mapMachine (·.enter scope)) t := by
  cases x with
  | done v m =>
      have hm : t.2.Fits (m.enter scope) := (h.ending rfl).of_eq rfl rfl
      exact done h.grows hm (h.value rfl)
  | starved => exact h
  | failed error m =>
      refine ⟨h.grows, h.sound, ?_, nofun⟩
      rintro _ ⟨⟩
      exact (h.ending rfl).of_eq rfl rfl

end Tracks

/-- The book is right about what statements give back. -/
def FlowAccounts (l : Ledger) (flow : Flow) (o : Origin) : Prop := l.Accounts flow.result o

/-- Statements that end normally give nothing back, and nothing has no origin. -/
theorem flowAccounts_normal (l : Ledger) : FlowAccounts l .normal none := .plain nofun

/-- What the body of a function gives back is the value of the call. -/
theorem Tracks.result {l : Ledger} {x : Outcome Flow} {t : Origin × Ledger}
    (h : Tracks FlowAccounts l x t) :
    Tracks Accounts l (x.andThen fun flow m => .done flow.result m) t := by
  cases x with
  | done flow m => exact done h.grows (h.ending rfl) (h.value rfl)
  | failed error m => exact ⟨h.grows, h.sound, h.ending, nofun⟩
  | starved => exact ⟨h.grows, h.sound, h.ending, nofun⟩

mutual

/-- The book is kept while an expression is evaluated, and it is right about the origin of its
value. The induction is on the steps, with the machine and the book side by side. -/
theorem eval_tracks : ∀ n e {m l}, l.Fits m → Tracks Accounts l (eval n e m) (evalTrack n e m l)
  | 0, _, _, _, h => .starved h.toSound none
  | n + 1, e, m, l, h => by
    unfold evalTrack
    refine Tracks.appearing ?_
    cases e with
    | literal value =>
        exact .done (.refl l) h (.plain (Value.ofLiteral_ne_callable value))
    | group inner => exact eval_tracks n inner h
    | unary op operand =>
        refine (eval_tracks n operand h).andThen fun v m o l _ h _ => ?_
        exact .ofExcept h op fun w hw => .plain fun f hf => Operator.unary_ne_callable (hf ▸ hw)
    | binary left op right =>
        refine (eval_tracks n left h).andThen fun v m o l _ h _ => ?_
        refine (eval_tracks n right h).andThen fun w m o l _ h _ => ?_
        exact .ofExcept h op fun u hu => .plain fun f hf => Operator.binary_ne_callable (hf ▸ hu)
    | logical left op right =>
        refine (eval_tracks n left h).andThen fun v m o l _ h hv => ?_
        split
        · exact .done (.refl l) h hv
        · exact eval_tracks n right h
    | get name =>
        simp only [eval]
        cases hget : m.get? name.lexeme with
        | none =>
            simp only
            split
            · exact .failed h _ _
            · exact .failed h _ _
        | some v =>
            obtain ⟨owner, howner, hv⟩ := h.get? hget
            simp only [howner]
            exact .done (.refl l) h hv
    | set name value =>
        refine (eval_tracks n value h).andThen fun v m o l _ h hv => ?_
        cases howner : m.owner? name.lexeme with
        | none => exact .failed h _ _
        | some owner =>
            have hgrows := l.grows_bind owner name.lexeme o
            exact .done hgrows (h.assignAt howner hv) (hv.mono hgrows)
    | call callee paren args =>
        -- Where the function comes from that is called has no part in what it gives back.
        refine (eval_tracks n callee h).andThen fun v m o l _ h _ => ?_
        refine (evalAll_tracks n args h).andThen fun vs m os l _ h hvs => ?_
        cases v with
        | callable f =>
            dsimp only
            split
            · exact invoke_tracks n f paren (h.of_eq rfl rfl) hvs
            · exact .failed h _ _
        | nil | bool | number | string => exact .failed h _ _

/-- Several expressions, with an origin for each value. -/
theorem evalAll_tracks : ∀ n es {m l}, l.Fits m →
    Tracks (fun l => List.Forall₂ l.Accounts) l (evalAll n es m) (evalAllTrack n es m l)
  | 0, _, _, _, h => .starved h.toSound []
  | _ + 1, [], _, l, h => .done (.refl l) h .nil
  | n + 1, e :: es, m, l, h => by
    refine (eval_tracks n e h).andThen fun v m o l _ h hv => ?_
    refine (evalAll_tracks n es h).andThen fun vs m os l₁ hgrows h hvs => ?_
    -- What the book says of the first value stays true while the others are found.
    exact .done (.refl l₁) h (.cons (hv.mono hgrows) hvs)

/-- A call: what it gives back has the origin that is kept for the body, or for the host function.
-/
theorem invoke_tracks : ∀ n f paren {args os m l}, l.Fits m → List.Forall₂ l.Accounts args os →
    Tracks Accounts l (invoke n f paren args m) (invokeTrack n f args os m l)
  | 0, _, _, _, _, _, _, h, _ => .starved h.toSound none
  | n + 1, ⟨_, .native _ _ op⟩, paren, args, os, m, l, h, hargs =>
    .ofExcept (h.native op args) paren fun v hv => Native.accounts_passed hargs hv
  | n + 1, ⟨_, .user decl closure⟩, paren, args, os, m, l, h, hargs => by
    have hopened := h.opened closure decl.params hargs
    have hbody := execIn_tracks n m.scopes.count decl.body hopened
    exact hbody.result.after (l.grows_bindAll _ _ _)

/-- A body in its own scope. -/
theorem execIn_tracks : ∀ n scope body {m l}, l.Fits m →
    Tracks FlowAccounts l (execIn n scope body m) (execInTrack n scope body m l)
  | 0, _, _, _, _, h => .starved h.toSound none
  | n + 1, scope, body, m, l, h => by
    rw [execIn_succ]
    have henter : l.Fits (m.enter scope) := h.of_eq rfl rfl
    exact (execAll_tracks n body henter).enter m.current

/-- Statements in a row, up to the first one that gives something back. -/
theorem execAll_tracks : ∀ n body {m l}, l.Fits m →
    Tracks FlowAccounts l (execAll n body m) (execAllTrack n body m l)
  | 0, _, _, _, h => .starved h.toSound none
  | _ + 1, [], _, l, h => .done (.refl l) h (flowAccounts_normal l)
  | n + 1, s :: rest, m, l, h => by
    refine (exec_tracks n s h).andThen fun flow m o l _ h hflow => ?_
    cases flow with
    | normal => exact execAll_tracks n rest h
    | returned v => exact .done (.refl l) h hflow

/-- One statement. Only a declaration of a function executes anything, and only there a new identity
is used. -/
theorem exec_tracks : ∀ n s {m l}, l.Fits m →
    Tracks FlowAccounts l (exec n s m) (execTrack n s m l)
  | 0, _, _, _, h => .starved h.toSound none
  | n + 1, s, m, l, h => by
    unfold execTrack
    cases s with
    | expression value =>
        refine (eval_tracks n value h).andThen fun v m o l _ h _ => ?_
        exact .done (.refl l) h (flowAccounts_normal l)
    | declare name init =>
        refine (evalOptional_tracks n init h).andThen fun v m o l _ h hv => ?_
        exact .done (l.grows_bind _ _ _) (h.define hv m.current name.lexeme)
          (flowAccounts_normal _)
    | block body =>
        have hopened : l.Fits (m.opened m.current [] []) := h.opened m.current [] .nil
        exact execIn_tracks n m.scopes.count body hopened
    | branch condition yes no =>
        refine (eval_tracks n condition h).andThen fun v m o l _ h _ => ?_
        split
        · exact exec_tracks n yes h
        · cases no with
          | none => exact .done (.refl l) h (flowAccounts_normal l)
          | some no => exact exec_tracks n no h
    | loop condition body => exact repeatWhile_tracks n condition body h
    | function name params body =>
        -- The execution is numbered when the function is made, so its number is the identity.
        have hnote : l.Fits (m.note (.declaring name.name params.length)) := h.of_eq rfl rfl
        exact .done (l.grows_execute _ _ _)
          (hnote.execute (.user ⟨name, params, body⟩ m.current) m.current name.lexeme)
          (flowAccounts_normal _)
    | giveBack word result =>
        refine (evalOptional_tracks n result h).andThen fun v m o l _ h hv => ?_
        exact .done (.refl l) h hv

/-- A value that may be missing, and has no origin then. -/
theorem evalOptional_tracks : ∀ n e {m l}, l.Fits m →
    Tracks Accounts l (evalOptional n e m) (evalOptionalTrack n e m l)
  | 0, _, _, _, h => .starved h.toSound none
  | _ + 1, none, _, l, h => .done (.refl l) h (.plain nofun)
  | n + 1, some e, _, _, h => eval_tracks n e h

/-- Rounds of a loop. -/
theorem repeatWhile_tracks : ∀ n condition body {m l}, l.Fits m →
    Tracks FlowAccounts l (repeatWhile n condition body m) (repeatWhileTrack n condition body m l)
  | 0, _, _, _, _, h => .starved h.toSound none
  | n + 1, condition, body, m, l, h => by
    refine (eval_tracks n condition h).andThen fun v m o l _ h _ => ?_
    split
    · refine (exec_tracks n body h).andThen fun flow m o l _ h hflow => ?_
      cases flow with
      | normal => exact repeatWhile_tracks n condition body h
      | returned v => exact .done (.refl l) h hflow
    · exact .done (.refl l) h (flowAccounts_normal l)

end

/-- The same for whole programs. -/
theorem runProgram_tracks (n : Nat) (program : Program) {m : Machine} {l : Ledger}
    (h : l.Fits m) :
    Tracks (fun _ _ _ => True) l (runProgram n program m) (execAllTrack n program m l) := by
  have hrun := execAll_tracks n program h
  unfold runProgram
  -- A value given back at the top level is noted and dropped. The book says nothing of notes.
  cases hx : execAll n program m with
  | failed error m₁ =>
      rw [hx] at hrun
      exact ⟨hrun.grows, hrun.sound, hrun.ending, fun _ => trivial⟩
  | starved => exact ⟨hrun.grows, hrun.sound, nofun, fun _ => trivial⟩
  | done flow m₁ =>
      rw [hx] at hrun
      have hm₁ : (execAllTrack n program m l).2.Fits m₁ := hrun.ending rfl
      cases flow with
      | normal => exact .done hrun.grows hm₁ trivial
      | returned v =>
          have hnote : (execAllTrack n program m l).2.Fits (m₁.note (.discarding v.text)) :=
            hm₁.of_eq rfl rfl
          exact .done hrun.grows hnote trivial

/-! ### Equality -/

namespace Ledger

variable {l : Ledger}

/-- Among values that appear, functions are equal exactly if they were copied from the same
execution. -/
structure TellsApart (l : Ledger) (Appears : Value → Origin → Prop) : Prop where
  equal_iff {k : Nat} {f : Callable} {v : Value} {o : Origin} : l.executions[k]? = some f →
    Appears v o → ((Value.callable f == v) = true ↔ o = some k)
  /-- A function that appears was made by an execution, and is still what was made there. -/
  made {f : Callable} {o : Origin} : Appears (.callable f) o →
    ∃ k, o = some k ∧ l.executions[k]? = some f
  /-- No two executions make equal functions, whatever is declared. -/
  distinct {j k : Nat} {f g : Callable} : l.executions[j]? = some f → l.executions[k]? = some g →
    j ≠ k → (Value.callable f == Value.callable g) = false

/-- Functions are compared by identity. -/
theorem callable_beq (f g : Callable) :
    (Value.callable f == Value.callable g) = decide (f.identity = g.identity) := rfl

/-- A book that is right tells functions apart: its numbers are the identities that are compared. -/
theorem Sound.tellsApart (h : l.Sound) {Appears : Value → Origin → Prop}
    (hall : ∀ v o, Appears v o → l.Accounts v o) : l.TellsApart Appears where
  equal_iff {k f v o} hf hv := by
    cases hall v o hv with
    | plain hplain =>
        -- Something that is no function is equal to none, and has no origin.
        have hne : (Value.callable f == v) = false := by
          cases v with
          | callable g => exact absurd rfl (hplain g)
          | nil | bool | number | string => rfl
        simp [hne]
    | callable hg =>
        rw [callable_beq, decide_eq_true_iff, h.identity hf, h.identity hg]
        simp [eq_comm]
  made {f o} hf := by
    cases hall _ o hf with
    | plain hplain => exact absurd rfl (hplain f)
    | callable hmade => exact ⟨_, rfl, hmade⟩
  distinct hf hg hne := by
    rw [callable_beq, h.identity hf, h.identity hg]
    exact decide_eq_false hne

end Ledger

end Scriptlet
