import Scriptlet.Proofs.Run.Coupling
import Scriptlet.Proofs.Run.Place

/-!
# `Scriptlet.Proofs.Run.Caller`: a call does not depend on its caller

Scoping is lexical. The body of a declared function runs in a new scope inside the scope of its
declaration, and a native function sees no scopes at all. So the scope that a call is made from
has no part in the call: it is only where the machine is again afterwards.

* `invoke_enter`: to make a call from another scope is to make it from here and to go to the
  other scope at the end.
* `invoke_lexical`: calls from two scopes do the same.
-/

set_option autoImplicit false

namespace Scriptlet

namespace Outcome

variable {α β : Type}

/-- A change of the machine at the end may wait for a second step that does nothing to it. -/
theorem mapMachine_andThen_done (x : Outcome α) (f : α → β) (change : Machine → Machine) :
    (x.mapMachine change).andThen (fun v m => .done (f v) m)
      = (x.andThen fun v m => .done (f v) m).mapMachine change := by
  cases x <;> rfl

/-- Two changes one after the other are one change. -/
theorem mapMachine_mapMachine (x : Outcome α) (f g : Machine → Machine) :
    (x.mapMachine f).mapMachine g = x.mapMachine (g ∘ f) := by
  cases x <;> rfl

/-- A reply on a machine in another scope is the reply, moved there. -/
theorem ofExcept_enter (token : Token) (x : Except Fault α) (m : Machine) (r : ScopeId) :
    ofExcept token x (m.enter r) = (ofExcept token x m).mapMachine (·.enter r) := by
  cases x <;> rfl

/-- Who goes to a scope at the end is there. -/
theorem current_of_mapMachine_enter {x : Outcome α} {r : ScopeId} :
    ∀ m ∈ (x.mapMachine (·.enter r)).machine?, m.current = r := by
  intro m hm
  cases x with
  | done v m₁ =>
      cases hm
      rfl
  | failed error m₁ =>
      cases hm
      rfl
  | starved => cases hm

end Outcome

/-- A native function does the same in every scope. -/
theorem Native.run_enter (op : Native) (args : List Value) (m : Machine) (r : ScopeId) :
    op.run args (m.enter r) = ((op.run args m).1, (op.run args m).2.enter r) := by
  have hblind := Native.blind_run op args m m.scopes r m.journal
  obtain ⟨input, output, generator, clock, hrun⟩ := Native.run_machine op args m
  rw [hrun] at hblind ⊢
  exact hblind

/-- The body of a call runs in its own scope, so nothing of the scope before it is left in what
the body does. -/
theorem execIn_enter (n : Nat) (scope : ScopeId) (body : List Stmt) (m : Machine) (r : ScopeId) :
    execIn n scope body (m.enter r) = (execIn n scope body m).mapMachine (·.enter r) := by
  cases n with
  | zero => rfl
  | succ n =>
      rw [execIn_succ, execIn_succ, Outcome.mapMachine_mapMachine]
      rfl

/-- A call from another scope is a call from here that ends in the other scope. -/
theorem invoke_enter (n : Nat) (f : Callable) (paren : Token) (args : List Value) (m : Machine)
    (r : ScopeId) :
    invoke n f paren args (m.enter r) = (invoke n f paren args m).mapMachine (·.enter r) := by
  cases n with
  | zero => rfl
  | succ n =>
      obtain ⟨identity, code⟩ := f
      cases code with
      | native name arity op =>
          show Outcome.ofExcept paren (op.run args (m.enter r)).1 (op.run args (m.enter r)).2 = _
          rw [Native.run_enter]
          exact Outcome.ofExcept_enter paren _ _ r
      | user decl closure =>
          -- The scope of the call is opened inside the closure, wherever the caller is.
          show (execIn n m.scopes.count decl.body
            ((m.opened closure decl.params args).enter r)).andThen _ = _
          rw [execIn_enter, Outcome.mapMachine_andThen_done]
          rfl

/-- **Scoping is lexical.** A call of any function, with any arguments and in any state, made
from the scope `r₁` and made from the scope `r₂`, ends in the same way: with the same value or
with the same error, and in machines that are the same in everything but the current scope,
which is again `r₁` and `r₂`. -/
theorem invoke_lexical (n : Nat) (f : Callable) (paren : Token) (args : List Value)
    (m : Machine) (r₁ r₂ : ScopeId) :
    invoke n f paren args (m.enter r₂)
        = (invoke n f paren args (m.enter r₁)).mapMachine (·.enter r₂) ∧
      (∀ m₁ ∈ (invoke n f paren args (m.enter r₁)).machine?, m₁.current = r₁) ∧
      ∀ m₂ ∈ (invoke n f paren args (m.enter r₂)).machine?, m₂.current = r₂ := by
  have hback : ∀ r, ∀ m' ∈ (invoke n f paren args (m.enter r)).machine?, m'.current = r := by
    intro r
    rw [invoke_enter]
    exact Outcome.current_of_mapMachine_enter
  refine ⟨?_, hback r₁, hback r₂⟩
  show invoke n f paren args ((m.enter r₁).enter r₂) = _
  exact invoke_enter n f paren args (m.enter r₁) r₂

end Scriptlet
