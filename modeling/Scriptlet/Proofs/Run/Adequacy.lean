import Mathlib.Order.Filter.AtTopBot.Basic
import Scriptlet.Proofs.Run.Rules
import Scriptlet.Proofs.Run.Sound
import Scriptlet.Proofs.Run.Supply
import Scriptlet.Proofs.Session.Sound
import Scriptlet.Run.SplitMix

/-!
# `Scriptlet.Proofs.Run.Adequacy`: the evaluator does what the rules say

From a machine whose scopes are in order, a run ends in a certain way exactly when the rules
derive this ending, with the same world at the end.

* `eval_derives`, `exec_derives` and their like: what a run comes to can be derived, by
  induction on the supply of steps.
* `Semantics.Evaluates.reaches`, `Semantics.Executes.reaches` and their like: what can be
  derived is reached by a run with steps enough, by induction on the derivation.
* `evaluator_adequate`: both together, for expressions, statements and programs.

The machine has to be in order for the sake of names only: the search for a name goes from
a scope to an older one. The machine of every session is (`Session.Reachable.wellFormed`).
-/

set_option autoImplicit false

namespace Scriptlet

open Semantics

variable {α β : Type}

/-- The outcome with this ending and this machine. -/
def Semantics.Ending.outcome : Ending α → Machine → Outcome α
  | .value v, m => .done v m
  | .error r, m => .failed r m

/-- A reply at a token is an ending, with the machine as it was. -/
theorem Outcome.ofExcept_eq (token : Token) (reply : Except Fault α) (m : Machine) :
    Outcome.ofExcept token reply m = (Ending.ofReply token reply).outcome m := by
  cases reply <;> rfl

/-- An ending and the machine can be read off an outcome. -/
theorem Semantics.Ending.outcome_inj {o o' : Ending α} {m m' : Machine}
    (h : o.outcome m = o'.outcome m') : o = o' ∧ m = m' := by
  cases o <;> cases o' <;> cases h <;> exact ⟨rfl, rfl⟩

/-- How two steps in a row end: with an error of the first, or as the second ends. -/
theorem Outcome.andThen_ends {x : Outcome α} {next : α → Machine → Outcome β} {o : Ending β}
    {m' : Machine} (h : x.andThen next = o.outcome m') :
    (∃ r, o = .error r ∧ x = (Ending.error r).outcome m') ∨
      ∃ v m₁, x = (Ending.value v).outcome m₁ ∧ next v m₁ = o.outcome m' := by
  cases x with
  | done v m₁ => exact .inr ⟨v, m₁, rfl, h⟩
  | failed r m₁ =>
      obtain ⟨rfl, rfl⟩ := Ending.outcome_inj (o := .error r) (m := m₁) h
      exact .inl ⟨r, rfl, rfl⟩
  | starved => cases o <;> cases h

/-- Coming back to another scope at the end changes nothing about the ending. -/
theorem Outcome.mapMachine_ends {x : Outcome α} {change : Machine → Machine} {o : Ending α}
    {m' : Machine} (h : x.mapMachine change = o.outcome m') :
    ∃ m₁, x = o.outcome m₁ ∧ m' = change m₁ := by
  cases x with
  | done v m₁ =>
      obtain ⟨rfl, rfl⟩ := Ending.outcome_inj (o := .value v) h
      exact ⟨m₁, rfl, rfl⟩
  | failed r m₁ =>
      obtain ⟨rfl, rfl⟩ := Ending.outcome_inj (o := .error r) h
      exact ⟨m₁, rfl, rfl⟩
  | starved => cases o <;> cases h

/-! ### Names -/

/-- A variable has a value when the nearest scope that binds it has the value, by the rules and in
the machine. -/
theorem Machine.get?_eq_some {m : Machine} (h : m.WellFormed) {name : Symbol} {v : Value} :
    m.get? name = some v ↔ ∃ owner cell, m.scopes.Nearest name m.current owner ∧
      m.scopes.at? owner = some cell ∧ cell.find? name = some v := by
  simp only [get?, Scopes.get?, Option.bind_eq_bind, Option.bind_eq_some_iff,
    Scopes.resolve_eq_some h.nested]
  constructor
  · rintro ⟨owner, hnearest, cell, hcell, hfind⟩
    exact ⟨owner, cell, hnearest, hcell, hfind⟩
  · rintro ⟨owner, cell, hnearest, hcell, hfind⟩
    exact ⟨owner, hnearest, cell, hcell, hfind⟩

/-- A variable is unbound by the rules when the machine finds nothing. -/
theorem Machine.get?_eq_none {m : Machine} (h : m.WellFormed) {name : Symbol} :
    m.get? name = none ↔ m.world.Unbound m.current name := by
  constructor
  · intro hget owner hnearest
    -- A scope that owns the name has a value for it.
    obtain ⟨cell, v, hcell, hfind⟩ := hnearest.value
    have hsome := (get?_eq_some h).2 ⟨owner, cell, hnearest, hcell, hfind⟩
    rw [hget] at hsome
    cases hsome
  · intro hunbound
    rw [Option.eq_none_iff_forall_ne_some]
    intro v hget
    obtain ⟨owner, _, hnearest, -⟩ := (get?_eq_some h).1 hget
    exact hunbound owner hnearest

/-- An assignment is to an unbound variable when the machine finds no scope to assign in. -/
theorem Machine.owner?_eq_none {m : Machine} (h : m.WellFormed) {name : Symbol} :
    m.owner? name = none ↔ m.world.Unbound m.current name :=
  Scopes.resolve_eq_none h.nested

/-! ### From runs to rules -/

/-- A scope of a block or a call, in a machine in order, leaves it in order. -/
theorem Machine.WellFormed.inside {m : Machine} (h : m.WellFormed) {parent : ScopeId}
    (hparent : parent < m.scopes.count) (params : List Token) {args : List Value}
    (hargs : ∀ v ∈ args, v.Fits (fun _ => True) m.scopes.count) :
    (m.inside parent params args).WellFormed :=
  Machine.Sound.inside h hparent (fun _ _ => trivial) hargs

/-- A run that is done from a machine in order, as the rules for what follows need it. -/
theorem Machine.WellFormed.after_eval {n : Nat} {e : Expr} {m m₁ : Machine} {v : Value}
    (h : m.WellFormed) (hrun : eval n e m = (Ending.value v).outcome m₁) :
    m₁.WellFormed ∧ m₁.current = m.current := by
  have hlater := (h.eval (fun _ _ => trivial) hrun).1
  exact ⟨hlater.sound, hlater.current⟩

/-- A value that may be missing leaves the current scope as it was. -/
theorem Machine.WellFormed.after_evalOptional {n : Nat} {e : Option Expr} {m m₁ : Machine}
    {v : Value} (h : m.WellFormed)
    (hrun : evalOptional n e m = (Ending.value v).outcome m₁) : m₁.current = m.current := by
  have hkeeps := Upkeep.evalOptional_keeps (soundUpkeep_lawful fun _ => True) n (e := e)
    (fun _ _ _ _ => trivial) h
  rw [hrun] at hkeeps
  exact hkeeps.1.current

/-- A statement leaves the machine in order and in its scope. -/
theorem Machine.WellFormed.after_exec {n : Nat} {s : Stmt} {m m₁ : Machine} {flow : Flow}
    (h : m.WellFormed) (hrun : exec n s m = (Ending.value flow).outcome m₁) :
    m₁.WellFormed ∧ m₁.current = m.current := by
  have hlater := h.exec (fun _ _ => trivial) hrun
  exact ⟨hlater.sound, hlater.current⟩

mutual

/-- What the evaluator makes of an expression can be derived. Each step of the evaluator is matched
by the rule for what it came to. -/
theorem eval_derives : ∀ n {e m o m'}, m.WellFormed → eval n e m = o.outcome m' →
    Evaluates e m.current m.world o m'.world
  | 0, _, _, o, _, _, h => by cases o <;> cases h
  | n + 1, e, m, o, m', hm, h => by
    cases e with
    | literal value =>
        obtain ⟨rfl, rfl⟩ := Ending.outcome_inj (o := .value _) h
        exact .literal
    | group inner => exact .group (eval_derives n hm h)
    | unary op operand =>
        obtain ⟨r, rfl, hx⟩ | ⟨v, m₁, hx, h⟩ := Outcome.andThen_ends h
        · exact .unaryError (eval_derives n hm hx)
        · rw [Outcome.ofExcept_eq] at h
          obtain ⟨rfl, rfl⟩ := Ending.outcome_inj h
          exact .unary (eval_derives n hm hx) (unaryRule_iff.2 rfl)
    | binary left op right =>
        obtain ⟨r, rfl, hx⟩ | ⟨v, m₁, hx, h⟩ := Outcome.andThen_ends h
        · exact .binaryLeft (eval_derives n hm hx)
        · have hleft := eval_derives n hm hx
          obtain ⟨hm₁, hcurrent⟩ := hm.after_eval hx
          obtain ⟨r, rfl, hy⟩ | ⟨w, m₂, hy, h⟩ := Outcome.andThen_ends h
          · exact .binaryRight hleft (hcurrent ▸ eval_derives n hm₁ hy)
          · rw [Outcome.ofExcept_eq] at h
            obtain ⟨rfl, rfl⟩ := Ending.outcome_inj h
            exact .binary hleft (hcurrent ▸ eval_derives n hm₁ hy) (binaryRule_iff.2 rfl)
    | logical left op right =>
        obtain ⟨r, rfl, hx⟩ | ⟨v, m₁, hx, h⟩ := Outcome.andThen_ends h
        · exact .logicalError (eval_derives n hm hx)
        · have hleft := eval_derives n hm hx
          obtain ⟨hm₁, hcurrent⟩ := hm.after_eval hx
          split at h
          case isTrue hdecides =>
            obtain ⟨rfl, rfl⟩ := Ending.outcome_inj (o := .value v) h
            exact .logicalLeft hleft (decides_iff.2 hdecides)
          case isFalse hdecides =>
            exact .logicalRight hleft (fun hd => hdecides (decides_iff.1 hd))
              (hcurrent ▸ eval_derives n hm₁ h)
    | get name =>
        simp only [eval] at h
        split at h
        case h_1 v hv =>
          obtain ⟨rfl, rfl⟩ := Ending.outcome_inj (o := .value v) h
          obtain ⟨owner, cell, hnearest, hcell, hfind⟩ := (Machine.get?_eq_some hm).1 hv
          exact .get hnearest hcell hfind
        case h_2 hnone =>
          obtain ⟨rfl, rfl⟩ := Ending.outcome_inj (o := .error _) h
          exact .getUnbound ((Machine.get?_eq_none hm).1 hnone)
    | set name value =>
        obtain ⟨r, rfl, hx⟩ | ⟨v, m₁, hx, h⟩ := Outcome.andThen_ends h
        · exact .setError (eval_derives n hm hx)
        · have hvalue := eval_derives n hm hx
          obtain ⟨hm₁, hcurrent⟩ := hm.after_eval hx
          split at h
          case h_1 owner howner =>
            obtain ⟨rfl, rfl⟩ := Ending.outcome_inj (o := .value v) h
            exact .set hvalue (hcurrent ▸ (Scopes.resolve_eq_some hm₁.nested).1 howner)
          case h_2 hnone =>
            obtain ⟨rfl, rfl⟩ := Ending.outcome_inj (o := .error _) h
            exact .setUnbound hvalue (hcurrent ▸ (Machine.owner?_eq_none hm₁).1 hnone)
    | call callee paren args =>
        obtain ⟨r, rfl, hx⟩ | ⟨v, m₁, hx, h⟩ := Outcome.andThen_ends h
        · exact .callError (eval_derives n hm hx)
        · have hcallee := eval_derives n hm hx
          obtain ⟨hlater₁, hv⟩ := hm.eval (fun _ _ => trivial) hx
          obtain ⟨r, rfl, hy⟩ | ⟨vs, m₂, hy, h⟩ := Outcome.andThen_ends h
          · exact .argumentError hcallee
              (hlater₁.current ▸ evalAll_derives n hlater₁.sound hy)
          · have hargs := hlater₁.current ▸ evalAll_derives n hlater₁.sound hy
            -- The function value is older than the arguments. It still fits, as no scope goes away.
            obtain ⟨hlater₂, hvs⟩ := hlater₁.sound.evalAll (fun _ _ _ _ => trivial) hy
            cases v with
            | callable f =>
                dsimp only at h
                split at h
                case isTrue harity =>
                  have hf : f.Fits (fun _ => True) m₂.scopes.count := hv.mono hlater₂.count
                  exact .call hcallee hargs harity
                    (invoke_derives n (m := m₂.note _) (hlater₂.sound.note _) hf hvs h)
                case isFalse harity =>
                  obtain ⟨rfl, rfl⟩ := Ending.outcome_inj (o := .error _) h
                  exact .callArity hcallee hargs harity
            | _ =>
                obtain ⟨rfl, rfl⟩ := Ending.outcome_inj (o := .error _) h
                refine .callOther hcallee hargs fun f hf => ?_
                cases hf

/-- Several expressions, from left to right. -/
theorem evalAll_derives : ∀ n {es m o m'}, m.WellFormed → evalAll n es m = o.outcome m' →
    EvaluatesAll es m.current m.world o m'.world
  | 0, _, _, o, _, _, h => by cases o <;> cases h
  | n + 1, [], m, o, m', hm, h => by
    obtain ⟨rfl, rfl⟩ := Ending.outcome_inj (o := .value _) h
    exact .nil
  | n + 1, e :: es, m, o, m', hm, h => by
    obtain ⟨r, rfl, hx⟩ | ⟨v, m₁, hx, h⟩ := Outcome.andThen_ends h
    · exact .first (eval_derives n hm hx)
    · have hfirst := eval_derives n hm hx
      obtain ⟨hm₁, hcurrent⟩ := hm.after_eval hx
      obtain ⟨r, rfl, hy⟩ | ⟨vs, m₂, hy, h⟩ := Outcome.andThen_ends h
      · exact .later hfirst (hcurrent ▸ evalAll_derives n hm₁ hy)
      · obtain ⟨rfl, rfl⟩ := Ending.outcome_inj (o := .value _) h
        exact .cons hfirst (hcurrent ▸ evalAll_derives n hm₁ hy)

/-- What comes of a call can be derived, by a rule of the host function or by those of the body. -/
theorem invoke_derives : ∀ n {f paren args m o m'}, m.WellFormed →
    f.Fits (fun _ => True) m.scopes.count →
    (∀ v ∈ args, v.Fits (fun _ => True) m.scopes.count) →
    invoke n f paren args m = o.outcome m' → Calls f paren args m.world o m'.world
  | 0, _, _, _, _, o, _, _, _, _, h => by cases o <;> cases h
  | n + 1, ⟨identity, .native name arity op⟩, paren, args, m, o, m', _, _, _, h => by
    replace h : Outcome.ofExcept paren (op.run args m).1 (op.run args m).2 = o.outcome m' := h
    rw [Outcome.ofExcept_eq] at h
    obtain ⟨rfl, rfl⟩ := Ending.outcome_inj h
    exact .native (performs_iff.2 ⟨rfl, rfl⟩)
  | n + 1, ⟨identity, .user decl closure⟩, paren, args, m, o, m', hm, hf, hargs, h => by
    -- The body runs in a scope of its own below the scope where the function was declared.
    have hinside := hm.inside hf.1 decl.params hargs
    obtain ⟨r, rfl, hx⟩ | ⟨flow, m₁, hx, h⟩ := Outcome.andThen_ends h
    · exact .error (execIn_derives n hx hinside)
    · obtain ⟨rfl, rfl⟩ := Ending.outcome_inj (o := .value _) h
      have hbody := execIn_derives n hx hinside
      cases flow with
      | normal => exact .normal hbody
      | returned v => exact .returned hbody

/-- A body in another scope. Coming back leaves the world as it is. -/
theorem execIn_derives : ∀ n {scope body m o m'}, execIn n scope body m = o.outcome m' →
    (m.enter scope).WellFormed → ExecutesAll body scope m.world o m'.world
  | 0, _, _, _, o, _, h, _ => by cases o <;> cases h
  | n + 1, scope, body, m, o, m', h, hm => by
    rw [execIn_succ] at h
    obtain ⟨m₁, hx, rfl⟩ := Outcome.mapMachine_ends h
    -- The way back changes the scope in use, of which the world knows nothing.
    show ExecutesAll body scope m.world o m₁.world
    exact execAll_derives n hm hx

/-- Statements in a row, up to the first one that fails or gives something back. -/
theorem execAll_derives : ∀ n {body m o m'}, m.WellFormed → execAll n body m = o.outcome m' →
    ExecutesAll body m.current m.world o m'.world
  | 0, _, _, o, _, _, h => by cases o <;> cases h
  | n + 1, [], m, o, m', hm, h => by
    obtain ⟨rfl, rfl⟩ := Ending.outcome_inj (o := .value _) h
    exact .nil
  | n + 1, s :: rest, m, o, m', hm, h => by
    obtain ⟨r, rfl, hx⟩ | ⟨flow, m₁, hx, h⟩ := Outcome.andThen_ends h
    · exact .error (exec_derives n hm hx)
    · have hfirst := exec_derives n hm hx
      obtain ⟨hm₁, hcurrent⟩ := hm.after_exec hx
      cases flow with
      | normal => exact .cons hfirst (hcurrent ▸ execAll_derives n hm₁ h)
      | returned v =>
          obtain ⟨rfl, rfl⟩ := Ending.outcome_inj (o := .value _) h
          exact .returned hfirst

/-- What becomes of a statement can be derived. -/
theorem exec_derives : ∀ n {s m o m'}, m.WellFormed → exec n s m = o.outcome m' →
    Executes s m.current m.world o m'.world
  | 0, _, _, o, _, _, h => by cases o <;> cases h
  | n + 1, s, m, o, m', hm, h => by
    cases s with
    | expression value =>
        obtain ⟨r, rfl, hx⟩ | ⟨v, m₁, hx, h⟩ := Outcome.andThen_ends h
        · exact .expressionError (eval_derives n hm hx)
        · obtain ⟨rfl, rfl⟩ := Ending.outcome_inj (o := .value _) h
          exact .expression (eval_derives n hm hx)
    | declare name init =>
        obtain ⟨r, rfl, hx⟩ | ⟨v, m₁, hx, h⟩ := Outcome.andThen_ends h
        · obtain ⟨e, rfl, he⟩ | ⟨-, ho, -⟩ := evalOptional_derives n hm hx
          · exact .declareError he
          · cases ho
        · obtain ⟨rfl, rfl⟩ := Ending.outcome_inj (o := .value _) h
          have hcurrent := hm.after_evalOptional hx
          obtain ⟨e, rfl, he⟩ | ⟨rfl, ho, rfl⟩ := evalOptional_derives n hm hx
          -- The name is bound in the scope that is in use behind the value, which is the old one.
          · show Executes _ _ _ _ (m₁.world.bind m₁.current name.lexeme v)
            rw [hcurrent]
            exact .declare he
          · cases ho
            exact .declareNil
    | block body =>
        have hinside : (m.inside m.current [] []).WellFormed :=
          hm.inside hm.current [] (by simp)
        exact .block (execIn_derives n h hinside)
    | branch condition yes no =>
        obtain ⟨r, rfl, hx⟩ | ⟨v, m₁, hx, h⟩ := Outcome.andThen_ends h
        · exact .branchError (eval_derives n hm hx)
        · have hcondition := eval_derives n hm hx
          obtain ⟨hm₁, hcurrent⟩ := hm.after_eval hx
          split at h
          case isTrue hv =>
            exact .branchYes hcondition (not_falsy_iff.2 hv) (hcurrent ▸ exec_derives n hm₁ h)
          case isFalse hv =>
            have hv := falsy_iff.2 (Bool.eq_false_of_not_eq_true hv)
            cases no with
            | some no => exact .branchNo hcondition hv (hcurrent ▸ exec_derives n hm₁ h)
            | none =>
                obtain ⟨rfl, rfl⟩ := Ending.outcome_inj (o := .value _) h
                exact .branchNone hcondition hv
    | loop condition body => exact repeatWhile_derives n hm h
    | function name params body =>
        obtain ⟨rfl, rfl⟩ := Ending.outcome_inj (o := .value _) h
        exact .function
    | giveBack word result =>
        obtain ⟨r, rfl, hx⟩ | ⟨v, m₁, hx, h⟩ := Outcome.andThen_ends h
        · obtain ⟨e, rfl, he⟩ | ⟨-, ho, -⟩ := evalOptional_derives n hm hx
          · exact .giveBackError he
          · cases ho
        · obtain ⟨rfl, rfl⟩ := Ending.outcome_inj (o := .value _) h
          obtain ⟨e, rfl, he⟩ | ⟨rfl, ho, rfl⟩ := evalOptional_derives n hm hx
          · exact .giveBack he
          · cases ho
            exact .giveBackNil

/-- An expression that may be missing is evaluated, or it gives nil. -/
theorem evalOptional_derives : ∀ n {e m o m'}, m.WellFormed →
    evalOptional n e m = o.outcome m' →
    (∃ e', e = some e' ∧ Evaluates e' m.current m.world o m'.world) ∨
      (e = none ∧ o = .value .nil ∧ m' = m)
  | 0, _, _, o, _, _, h => by cases o <;> cases h
  | n + 1, none, m, o, m', hm, h => by
    obtain ⟨rfl, rfl⟩ := Ending.outcome_inj (o := .value _) h
    exact .inr ⟨rfl, rfl, rfl⟩
  | n + 1, some e, m, o, m', hm, h => .inl ⟨e, rfl, eval_derives n hm h⟩

/-- Rounds of a loop. Each round is one use of the rule for loops, and the rounds behind it are a
derivation again. -/
theorem repeatWhile_derives : ∀ n {c body m o m'}, m.WellFormed →
    repeatWhile n c body m = o.outcome m' → Executes (.loop c body) m.current m.world o m'.world
  | 0, _, _, _, o, _, _, h => by cases o <;> cases h
  | n + 1, c, body, m, o, m', hm, h => by
    obtain ⟨r, rfl, hx⟩ | ⟨v, m₁, hx, h⟩ := Outcome.andThen_ends h
    · exact .loopError (eval_derives n hm hx)
    · have hcondition := eval_derives n hm hx
      obtain ⟨hm₁, hcurrent⟩ := hm.after_eval hx
      split at h
      case isTrue hv =>
        have hv := not_falsy_iff.2 hv
        obtain ⟨r, rfl, hy⟩ | ⟨flow, m₂, hy, h⟩ := Outcome.andThen_ends h
        · exact .loopBodyError hcondition hv (hcurrent ▸ exec_derives n hm₁ hy)
        · have hbody := hcurrent ▸ exec_derives n hm₁ hy
          obtain ⟨hm₂, hcurrent₂⟩ := hm₁.after_exec hy
          cases flow with
          | normal =>
              have hrounds := repeatWhile_derives n hm₂ h
              rw [hcurrent₂, hcurrent] at hrounds
              exact .loopRound hcondition hv hbody hrounds
          | returned w =>
              obtain ⟨rfl, rfl⟩ := Ending.outcome_inj (o := .value _) h
              exact .loopReturned hcondition hv hbody
      case isFalse hv =>
        obtain ⟨rfl, rfl⟩ := Ending.outcome_inj (o := .value _) h
        exact .loopEnd hcondition (falsy_iff.2 (Bool.eq_false_of_not_eq_true hv))

end

/-! ### From rules to runs -/

/-- The scope of a block or a call is the next one, in the world that the rules say. -/
theorem Machine.world_inside (m : Machine) (parent : ScopeId) (params : List Token)
    (args : List Value) :
    (m.inside parent params args).current = m.world.fresh ∧
      (m.inside parent params args).world = m.world.nest parent params args :=
  ⟨rfl, rfl⟩

/-- With steps enough, the run comes to the ending, in this world. -/
def Reaches (p : Nat → Outcome α) (o : Ending α) (σ : World) : Prop :=
  ∃ m, (∀ᶠ n in Filter.atTop, p n = o.outcome m) ∧ m.world = σ

/-- One step more or less does not matter. -/
theorem reaches_succ {p : Nat → Outcome α} {o : Ending α} {σ : World} :
    Reaches (fun n => p (n + 1)) o σ ↔ Reaches p o σ := by
  unfold Reaches
  conv_rhs => rw [← Filter.map_add_atTop_eq_nat 1]
  rfl

alias ⟨Reaches.succ, Reaches.pred⟩ := reaches_succ

/-- An ending that is there without any steps is reached. -/
theorem Reaches.outcome (o : Ending α) {m : Machine} {σ : World} (h : m.world = σ) :
    Reaches (fun _ => o.outcome m) o σ :=
  ⟨m, .of_forall fun _ => rfl, h⟩

/-- The rule for two steps in a row if the first one is done. -/
theorem Reaches.andThen {p : Nat → Outcome α} {next : Nat → α → Machine → Outcome β} {v : α}
    {σ σ' : World} {o : Ending β} (hp : Reaches p (.value v) σ)
    (hnext : ∀ n m, p n = (Ending.value v).outcome m → m.world = σ →
      Reaches (fun n => next n v m) o σ') :
    Reaches (fun n => (p n).andThen (next n)) o σ' := by
  obtain ⟨m, hm, hworld⟩ := hp
  obtain ⟨n, hn⟩ := hm.exists
  obtain ⟨m', hm', hworld'⟩ := hnext n m hn hworld
  refine ⟨m', ?_, hworld'⟩
  filter_upwards [hm, hm'] with n hn hn'
  rw [hn]
  exact hn'

/-- The rule for two steps in a row if the first one fails. -/
theorem Reaches.andThen_error {p : Nat → Outcome α} {next : Nat → α → Machine → Outcome β}
    {r : RuntimeError} {σ : World} (hp : Reaches p (.error r) σ) :
    Reaches (fun n => (p n).andThen (next n)) (.error r) σ := by
  obtain ⟨m, hm, hworld⟩ := hp
  refine ⟨m, ?_, hworld⟩
  filter_upwards [hm] with n hn
  rw [hn]
  rfl

/-- Coming back to a scope leaves the world as it is. -/
theorem Reaches.enter {p : Nat → Outcome α} {o : Ending α} {σ : World} (scope : ScopeId)
    (hp : Reaches p o σ) : Reaches (fun n => (p n).mapMachine (·.enter scope)) o σ := by
  obtain ⟨m, hm, hworld⟩ := hp
  refine ⟨m.enter scope, ?_, hworld⟩
  filter_upwards [hm] with n hn
  rw [hn]
  cases o <;> rfl

mutual

/-- An expression whose ending is derived comes to it with steps enough. There is one case for each
rule, and the steps of the parts are those of the smaller derivations. -/
theorem Semantics.Evaluates.reaches {e : Expr} {scope : ScopeId} {σ σ' : World}
    {o : Ending Value} {m : Machine} (hm : m.WellFormed) (hscope : m.current = scope)
    (hworld : m.world = σ) : Evaluates e scope σ o σ' → Reaches (fun n => eval n e m) o σ'
  | .literal => .succ (.outcome (.value _) hworld)
  | .group he => .succ (he.reaches hm hscope hworld)
  | .unary he hrule => by
    refine .succ (.andThen (he.reaches hm hscope hworld) fun n m₁ _ hworld₁ => ?_)
    rw [unaryRule_iff.1 hrule, Outcome.ofExcept_eq]
    exact .outcome _ hworld₁
  | .unaryError he => .succ (.andThen_error (he.reaches hm hscope hworld))
  | .binary ha hb hrule => by
    refine .succ (.andThen (ha.reaches hm hscope hworld) fun n m₁ hrun hworld₁ => ?_)
    obtain ⟨hm₁, hcurrent⟩ := hm.after_eval hrun
    refine .andThen (hb.reaches hm₁ (hcurrent.trans hscope) hworld₁) fun n m₂ _ hworld₂ => ?_
    rw [binaryRule_iff.1 hrule, Outcome.ofExcept_eq]
    exact .outcome _ hworld₂
  | .binaryLeft ha => .succ (.andThen_error (ha.reaches hm hscope hworld))
  | .binaryRight ha hb => by
    refine .succ (.andThen (ha.reaches hm hscope hworld) fun n m₁ hrun hworld₁ => ?_)
    obtain ⟨hm₁, hcurrent⟩ := hm.after_eval hrun
    exact .andThen_error (hb.reaches hm₁ (hcurrent.trans hscope) hworld₁)
  | .logicalLeft ha hdecides => by
    refine .succ (.andThen (ha.reaches hm hscope hworld) fun n m₁ _ hworld₁ => ?_)
    simp only [if_pos (decides_iff.1 hdecides)]
    exact .outcome (.value _) hworld₁
  | .logicalRight ha hdecides hb => by
    refine .succ (.andThen (ha.reaches hm hscope hworld) fun n m₁ hrun hworld₁ => ?_)
    obtain ⟨hm₁, hcurrent⟩ := hm.after_eval hrun
    simp only [if_neg fun h => hdecides (decides_iff.2 h)]
    exact hb.reaches hm₁ (hcurrent.trans hscope) hworld₁
  | .logicalError ha => .succ (.andThen_error (ha.reaches hm hscope hworld))
  | .get hnearest hcell hfind => by
    subst hscope hworld
    have hget := (Machine.get?_eq_some hm).2 ⟨_, _, hnearest, hcell, hfind⟩
    refine .succ ?_
    simp only [eval, hget]
    exact .outcome (.value _) rfl
  | .getUnbound hunbound => by
    subst hscope hworld
    have hget := (Machine.get?_eq_none hm).2 hunbound
    refine .succ ?_
    simp only [eval, hget]
    exact .outcome (.error _) rfl
  | .set he hnearest => by
    refine .succ (.andThen (he.reaches hm hscope hworld) fun n m₁ hrun hworld₁ => ?_)
    obtain ⟨hm₁, hcurrent⟩ := hm.after_eval hrun
    subst hworld₁
    rw [← hscope, ← hcurrent] at hnearest
    have howner : m₁.owner? _ = some _ := (Scopes.resolve_eq_some hm₁.nested).2 hnearest
    simp only [howner]
    exact .outcome (.value _) rfl
  | .setUnbound he hunbound => by
    refine .succ (.andThen (he.reaches hm hscope hworld) fun n m₁ hrun hworld₁ => ?_)
    obtain ⟨hm₁, hcurrent⟩ := hm.after_eval hrun
    subst hworld₁
    rw [← hscope, ← hcurrent] at hunbound
    simp only [(Machine.owner?_eq_none hm₁).2 hunbound]
    exact .outcome (.error _) rfl
  | .setError he => .succ (.andThen_error (he.reaches hm hscope hworld))
  | .call hf hargs harity hcall => by
    refine .succ (.andThen (hf.reaches hm hscope hworld) fun n m₁ hrun hworld₁ => ?_)
    obtain ⟨hlater₁, hfits⟩ := hm.eval (fun _ _ => trivial) hrun
    refine .andThen (hargs.reaches hlater₁.sound (hlater₁.current.trans hscope) hworld₁) ?_
    intro n m₂ hrun₂ hworld₂
    obtain ⟨hlater₂, hvs⟩ := hlater₁.sound.evalAll (fun _ _ _ _ => trivial) hrun₂
    simp only [if_pos harity]
    exact hcall.reaches (hlater₂.sound.note _) hworld₂ (hfits.mono hlater₂.count) hvs
  | .callArity hf hargs harity => by
    refine .succ (.andThen (hf.reaches hm hscope hworld) fun n m₁ hrun hworld₁ => ?_)
    obtain ⟨hm₁, hcurrent⟩ := hm.after_eval hrun
    refine .andThen (hargs.reaches hm₁ (hcurrent.trans hscope) hworld₁) fun n m₂ _ hworld₂ => ?_
    simp only [if_neg harity]
    exact .outcome (.error _) hworld₂
  | .callOther (v := v) hv hargs hother => by
    refine .succ (.andThen (hv.reaches hm hscope hworld) fun n m₁ hrun hworld₁ => ?_)
    obtain ⟨hm₁, hcurrent⟩ := hm.after_eval hrun
    refine .andThen (hargs.reaches hm₁ (hcurrent.trans hscope) hworld₁) fun n m₂ _ hworld₂ => ?_
    cases v with
    | callable f => exact absurd rfl (hother f)
    | _ => exact .outcome (.error _) hworld₂
  | .callError hf => .succ (.andThen_error (hf.reaches hm hscope hworld))
  | .argumentError hv hargs => by
    refine .succ (.andThen (hv.reaches hm hscope hworld) fun n m₁ hrun hworld₁ => ?_)
    obtain ⟨hm₁, hcurrent⟩ := hm.after_eval hrun
    exact .andThen_error (hargs.reaches hm₁ (hcurrent.trans hscope) hworld₁)

/-- Several expressions come to the values or the error that are derived. -/
theorem Semantics.EvaluatesAll.reaches {es : List Expr} {scope : ScopeId} {σ σ' : World}
    {o : Ending (List Value)} {m : Machine} (hm : m.WellFormed) (hscope : m.current = scope)
    (hworld : m.world = σ) :
    EvaluatesAll es scope σ o σ' → Reaches (fun n => evalAll n es m) o σ'
  | .nil => .succ (.outcome (.value _) hworld)
  | .cons he hes => by
    refine .succ (.andThen (he.reaches hm hscope hworld) fun n m₁ hrun hworld₁ => ?_)
    obtain ⟨hm₁, hcurrent⟩ := hm.after_eval hrun
    refine .andThen (hes.reaches hm₁ (hcurrent.trans hscope) hworld₁) fun n m₂ _ hworld₂ => ?_
    exact .outcome (.value _) hworld₂
  | .first he => .succ (.andThen_error (he.reaches hm hscope hworld))
  | .later he hes => by
    refine .succ (.andThen (he.reaches hm hscope hworld) fun n m₁ hrun hworld₁ => ?_)
    obtain ⟨hm₁, hcurrent⟩ := hm.after_eval hrun
    exact .andThen_error (hes.reaches hm₁ (hcurrent.trans hscope) hworld₁)

/-- A call comes to the ending that is derived. -/
theorem Semantics.Calls.reaches {f : Callable} {paren : Token} {args : List Value}
    {σ σ' : World} {o : Ending Value} {m : Machine} (hm : m.WellFormed)
    (hworld : m.world = σ) (hf : f.Fits (fun _ => True) m.scopes.count)
    (hargs : ∀ v ∈ args, v.Fits (fun _ => True) m.scopes.count) :
    Calls f paren args σ o σ' → Reaches (fun n => invoke n f paren args m) o σ'
  | .native hperforms => by
    subst hworld
    obtain ⟨hreply, hworld⟩ := performs_iff.1 hperforms
    refine .succ ?_
    simp only [invoke, hreply, Outcome.ofExcept_eq]
    exact .outcome _ hworld
  | @Calls.normal _ decl closure _ args _ _ hbody => by
    have hinside := hm.inside hf.1 decl.params hargs
    -- The scope that the rules name is the one that the machine opens.
    obtain ⟨hfresh, hnest⟩ := hworld ▸ m.world_inside closure decl.params args
    refine .succ (.andThen (.succ (.enter _ (hbody.reaches hinside hfresh hnest))) ?_)
    exact fun n m₁ _ hworld₁ => .outcome (.value _) hworld₁
  | @Calls.returned _ decl closure _ args _ _ _ hbody => by
    have hinside := hm.inside hf.1 decl.params hargs
    obtain ⟨hfresh, hnest⟩ := hworld ▸ m.world_inside closure decl.params args
    refine .succ (.andThen (.succ (.enter _ (hbody.reaches hinside hfresh hnest))) ?_)
    exact fun n m₁ _ hworld₁ => .outcome (.value _) hworld₁
  | @Calls.error _ decl closure _ args _ _ _ hbody => by
    have hinside := hm.inside hf.1 decl.params hargs
    obtain ⟨hfresh, hnest⟩ := hworld ▸ m.world_inside closure decl.params args
    exact .succ (.andThen_error (.succ (.enter _ (hbody.reaches hinside hfresh hnest))))

/-- A statement comes to the ending that is derived. Rounds of a loop are smaller derivations, so
that the induction ends although the loop may not. -/
theorem Semantics.Executes.reaches {s : Stmt} {scope : ScopeId} {σ σ' : World}
    {o : Ending Flow} {m : Machine} (hm : m.WellFormed) (hscope : m.current = scope)
    (hworld : m.world = σ) : Executes s scope σ o σ' → Reaches (fun n => exec n s m) o σ'
  | .expression he => by
    refine .succ (.andThen (he.reaches hm hscope hworld) fun n m₁ _ hworld₁ => ?_)
    exact .outcome (.value _) hworld₁
  | .expressionError he => .succ (.andThen_error (he.reaches hm hscope hworld))
  | .declareNil => by
    subst hscope hworld
    exact .succ (.succ (.outcome (.value _) rfl))
  | .declare he => by
    refine .succ (.andThen (.succ (he.reaches hm hscope hworld)) fun n m₁ hrun hworld₁ => ?_)
    refine .outcome (.value _) ?_
    subst hworld₁
    rw [← hscope, ← hm.after_evalOptional hrun]
    rfl
  | .declareError he => .succ (.andThen_error (.succ (he.reaches hm hscope hworld)))
  | .block hbody => by
    have hinside : (m.inside m.current [] []).WellFormed := hm.inside hm.current [] (by simp)
    have hfresh : (m.inside m.current [] []).current = σ.fresh := hworld ▸ rfl
    have hnest : (m.inside m.current [] []).world = σ.nest scope [] [] := hworld ▸ hscope ▸ rfl
    exact .succ (.succ (.enter _ (hbody.reaches hinside hfresh hnest)))
  | .branchYes hc hv hyes => by
    refine .succ (.andThen (hc.reaches hm hscope hworld) fun n m₁ hrun hworld₁ => ?_)
    obtain ⟨hm₁, hcurrent⟩ := hm.after_eval hrun
    simp only [not_falsy_iff.1 hv, if_true]
    exact hyes.reaches hm₁ (hcurrent.trans hscope) hworld₁
  | .branchNo hc hv hno => by
    refine .succ (.andThen (hc.reaches hm hscope hworld) fun n m₁ hrun hworld₁ => ?_)
    obtain ⟨hm₁, hcurrent⟩ := hm.after_eval hrun
    simp only [falsy_iff.1 hv]
    exact hno.reaches hm₁ (hcurrent.trans hscope) hworld₁
  | .branchNone hc hv => by
    refine .succ (.andThen (hc.reaches hm hscope hworld) fun n m₁ _ hworld₁ => ?_)
    simp only [falsy_iff.1 hv]
    exact .outcome (.value _) hworld₁
  | .branchError hc => .succ (.andThen_error (hc.reaches hm hscope hworld))
  | .loopEnd hc hv => by
    refine .succ (.succ (.andThen (hc.reaches hm hscope hworld) fun n m₁ _ hworld₁ => ?_))
    simp only [falsy_iff.1 hv]
    exact .outcome (.value _) hworld₁
  | .loopRound hc hv hbody hrounds => by
    refine .succ (.succ (.andThen (hc.reaches hm hscope hworld) fun n m₁ hrun hworld₁ => ?_))
    obtain ⟨hm₁, hcurrent⟩ := hm.after_eval hrun
    simp only [not_falsy_iff.1 hv, if_true]
    refine .andThen (hbody.reaches hm₁ (hcurrent.trans hscope) hworld₁) fun n m₂ hrun₂ hworld₂ => ?_
    obtain ⟨hm₂, hcurrent₂⟩ := hm₁.after_exec hrun₂
    -- The rule goes on with the whole loop, the run with its rounds: one step less.
    exact (hrounds.reaches hm₂ (hcurrent₂.trans (hcurrent.trans hscope)) hworld₂).pred
  | .loopReturned hc hv hbody => by
    refine .succ (.succ (.andThen (hc.reaches hm hscope hworld) fun n m₁ hrun hworld₁ => ?_))
    obtain ⟨hm₁, hcurrent⟩ := hm.after_eval hrun
    simp only [not_falsy_iff.1 hv, if_true]
    refine .andThen (hbody.reaches hm₁ (hcurrent.trans hscope) hworld₁) fun n m₂ _ hworld₂ => ?_
    exact .outcome (.value _) hworld₂
  | .loopBodyError hc hv hbody => by
    refine .succ (.succ (.andThen (hc.reaches hm hscope hworld) fun n m₁ hrun hworld₁ => ?_))
    obtain ⟨hm₁, hcurrent⟩ := hm.after_eval hrun
    simp only [not_falsy_iff.1 hv, if_true]
    exact .andThen_error (hbody.reaches hm₁ (hcurrent.trans hscope) hworld₁)
  | .loopError hc => .succ (.succ (.andThen_error (hc.reaches hm hscope hworld)))
  | .function => by
    subst hscope hworld
    exact .succ (.outcome (.value _) rfl)
  | .giveBackNil => by
    refine .succ (.andThen (.succ (.outcome (.value _) hworld)) fun n m₁ _ hworld₁ => ?_)
    exact .outcome (.value _) hworld₁
  | .giveBack he => by
    refine .succ (.andThen (.succ (he.reaches hm hscope hworld)) fun n m₁ _ hworld₁ => ?_)
    exact .outcome (.value _) hworld₁
  | .giveBackError he => .succ (.andThen_error (.succ (he.reaches hm hscope hworld)))

/-- Statements in a row come to the ending that is derived for them. -/
theorem Semantics.ExecutesAll.reaches {ss : List Stmt} {scope : ScopeId} {σ σ' : World}
    {o : Ending Flow} {m : Machine} (hm : m.WellFormed) (hscope : m.current = scope)
    (hworld : m.world = σ) :
    ExecutesAll ss scope σ o σ' → Reaches (fun n => execAll n ss m) o σ'
  | .nil => .succ (.outcome (.value _) hworld)
  | .cons hs hss => by
    refine .succ (.andThen (hs.reaches hm hscope hworld) fun n m₁ hrun hworld₁ => ?_)
    obtain ⟨hm₁, hcurrent⟩ := hm.after_exec hrun
    exact hss.reaches hm₁ (hcurrent.trans hscope) hworld₁
  | .returned hs => by
    refine .succ (.andThen (hs.reaches hm hscope hworld) fun n m₁ _ hworld₁ => ?_)
    exact .outcome (.value _) hworld₁
  | .error hs => .succ (.andThen_error (hs.reaches hm hscope hworld))

end

/-! ### Both ways -/

/-- What becomes of a program can be derived. -/
theorem runProgram_derives {n : Nat} {program : Program} {m m' : Machine} {o : Ending Unit}
    (hm : m.WellFormed) (h : runProgram n program m = o.outcome m') :
    Interprets program m.current m.world o m'.world := by
  rcases Outcome.andThen_ends h with ⟨r, rfl, hx⟩ | ⟨flow, m₁, hx, h⟩
  · exact .error (execAll_derives n hm hx)
  · have hbody := execAll_derives n hm hx
    cases flow <;>
      (obtain ⟨rfl, rfl⟩ := Ending.outcome_inj (o := .value ()) h
       exact .done hbody)

/-- A program comes to the ending that is derived. -/
theorem Semantics.Interprets.reaches {program : Program} {m : Machine} {o : Ending Unit}
    {σ' : World} (hm : m.WellFormed) (h : Interprets program m.current m.world o σ') :
    Reaches (fun n => runProgram n program m) o σ' := by
  cases h with
  | @done _ flow hbody =>
      refine .andThen (hbody.reaches hm rfl rfl) fun n m₁ _ hworld₁ => ?_
      cases flow <;> exact .outcome (.value ()) hworld₁
  | error hbody => exact .andThen_error (hbody.reaches hm rfl rfl)

/-- What runs come to is what the rules derive. -/
structure Agrees (p : Nat → Outcome α) (R : Ending α → World → Prop) : Prop where
  /-- A run comes to an ending exactly when the rules derive it. -/
  ends : ∀ o σ, (∃ n m, p n = o.outcome m ∧ m.world = σ) ↔ R o σ
  /-- Once a run comes to an end, more steps change nothing. -/
  stable : ∀ n k, n ≤ k → p n ≠ .starved → p k = p n
  /-- No run comes to an end exactly when the rules derive no ending. -/
  diverges : (∀ n, p n = .starved) ↔ ∀ o σ, ¬ R o σ
  /-- The rules derive one ending at most. -/
  unique : ∀ o₁ σ₁ o₂ σ₂, R o₁ σ₁ → R o₂ σ₂ → o₁ = o₂ ∧ σ₁ = σ₂

/-- Both directions are all it takes, and that more steps change nothing. -/
theorem Agrees.of_both {p : Nat → Outcome α} {R : Ending α → World → Prop}
    (hbelow : ∀ n, (p n).Below (p (n + 1)))
    (hderives : ∀ n o m, p n = o.outcome m → R o m.world)
    (hreaches : ∀ o σ, R o σ → Reaches p o σ) : Agrees p R where
  ends o σ := by
    constructor
    · rintro ⟨n, m, hn, rfl⟩
      exact hderives n o m hn
    · intro h
      obtain ⟨m, hm, hworld⟩ := hreaches o σ h
      obtain ⟨n, hn⟩ := hm.exists
      exact ⟨n, m, hn, hworld⟩
  stable n k hle hn := by
    rcases Outcome.below_of_le hbelow hle with hstarved | heq
    · exact absurd hstarved hn
    · exact heq.symm
  diverges := by
    constructor
    · intro hstarved o σ h
      obtain ⟨m, hm, -⟩ := hreaches o σ h
      obtain ⟨n, hn⟩ := hm.exists
      rw [hstarved n] at hn
      cases o <;> cases hn
    · intro hnone n
      cases hn : p n with
      | done v m => exact absurd (hderives n (.value v) m hn) (hnone _ _)
      | failed r m => exact absurd (hderives n (.error r) m hn) (hnone _ _)
      | starved => rfl
  unique o₁ σ₁ o₂ σ₂ h₁ h₂ := by
    obtain ⟨m₁, hm₁, hworld₁⟩ := hreaches o₁ σ₁ h₁
    obtain ⟨m₂, hm₂, hworld₂⟩ := hreaches o₂ σ₂ h₂
    -- One supply of steps is enough for both.
    obtain ⟨n, hn₁, hn₂⟩ := (hm₁.and hm₂).exists
    obtain ⟨rfl, rfl⟩ := Ending.outcome_inj (hn₁.symm.trans hn₂)
    exact ⟨rfl, hworld₁.symm.trans hworld₂⟩

/-- **The evaluator does what the rules say.** From every machine whose scopes are in order,
and for every expression, statement, row of statements and program: a run ends in a
certain way and leaves a certain world exactly when the rules derive this, all runs with more
steps do the same, and no run ends exactly when the rules derive no ending. -/
theorem evaluator_adequate (m : Machine) (h : m.WellFormed) :
    (∀ e, Agrees (fun n => eval n e m) (Evaluates e m.current m.world)) ∧
    (∀ s, Agrees (fun n => exec n s m) (Executes s m.current m.world)) ∧
    (∀ body, Agrees (fun n => execAll n body m) (ExecutesAll body m.current m.world)) ∧
    ∀ program, Agrees (fun n => runProgram n program m)
      (Interprets program m.current m.world) := by
  refine ⟨fun e => ?_, fun s => ?_, fun body => ?_, fun program => ?_⟩
  · exact .of_both (fun n => eval_below n e m) (fun n o m' => eval_derives n h)
      fun o σ hR => hR.reaches h rfl rfl
  · exact .of_both (fun n => exec_below n s m) (fun n o m' => exec_derives n h)
      fun o σ hR => hR.reaches h rfl rfl
  · exact .of_both (fun n => execAll_below n body m) (fun n o m' => execAll_derives n h)
      fun o σ hR => hR.reaches h rfl rfl
  · exact .of_both (fun n => runProgram_below n program m)
      (fun n o m' => runProgram_derives h) fun o σ hR => hR.reaches h

/-- In a new session, the rules derive that a call prints its argument from inside a loop, and
gives it back. -/
theorem evaluator_adequate_call :
    let source := "fun f(a) \x7b while (true) \x7b print(a); return a; \x7d \x7d f(1);"
    let s := (Session.start (.new 0) (.ofBytes [] none) (.empty none)
      (.splitMix 0) (.steady (.ok 0))).emptied
    let program := (Analysis.ofSource source s.lexicon).program
    s.machine.WellFormed ∧ program.length = 2 ∧ ∃ σ,
      Interprets program s.machine.current s.machine.world (.value ()) σ ∧
      σ.output.bytes.toList = "1".toUTF8.toList := by
  intro source s program
  have hs : s.machine.WellFormed := Session.Reachable.wellFormed (.start 0 _ _ _ _)
  refine ⟨hs, by decide +kernel, ?_⟩
  have hsomething : [] ≠ "1".toUTF8.toList := by decide +kernel
  have hprinted : (match runProgram 40 program s.machine with
      | .done _ m => m.output.bytes.toList
      -- The run is of a fixed program, so evaluating it says which ending it has.
      | _ => []) = "1".toUTF8.toList := by decide +kernel
  cases hrun : runProgram 40 program s.machine with
  | done _ m =>
      rw [hrun] at hprinted
      exact ⟨m.world, (((evaluator_adequate _ hs).2.2.2 program).ends (.value ()) _).1
        ⟨40, m, hrun, rfl⟩, hprinted⟩
  | failed _ _ | starved =>
      rw [hrun] at hprinted
      exact absurd hprinted hsomething

end Scriptlet
