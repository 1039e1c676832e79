import Scriptlet.Run.Machine

/-!
# `Scriptlet.Run.Outcome`: how running ends

A step of a program ends in one of three ways: it is done and has a result, it failed with
an error at a token, or it used up its supply of steps and there is no more to say. In the
first two cases the machine goes on from where it stood.
-/

set_option autoImplicit false

namespace Scriptlet

/-- How running ends. -/
inductive Outcome (α : Type) where
  | done (result : α) (machine : Machine)
  | failed (error : RuntimeError) (machine : Machine)
  | starved

namespace Outcome

variable {α β : Type}

/-- Goes on with the result, if there is one. -/
@[inline] def andThen (x : Outcome α) (next : α → Machine → Outcome β) : Outcome β :=
  match x with
  | done result m => next result m
  | failed error m => failed error m
  | starved => starved

/-- Changes the machine at the end, whether the step is done or failed. -/
@[inline] def mapMachine (x : Outcome α) (change : Machine → Machine) : Outcome α :=
  match x with
  | done result m => done result (change m)
  | failed error m => failed error (change m)
  | starved => starved

/-- A result, or a fault at a token. -/
def ofExcept (token : Token) (x : Except Fault α) (m : Machine) : Outcome α :=
  match x with
  | .ok result => done result m
  | .error fault => failed ⟨token, fault⟩ m

end Outcome

/-- How a statement ends that is done: behind its last part, or by giving back a value to
the call it belongs to. -/
inductive Flow where
  | normal
  | returned (value : Value)

/-- What a call gives whose body ended this way. -/
def Flow.result : Flow → Value
  | normal => .nil
  | returned value => value

end Scriptlet
