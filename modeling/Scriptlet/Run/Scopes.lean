import Scriptlet.Run.Value

/-!
# `Scriptlet.Run.Scopes`: nested scopes in one store

A store of scopes. Each scope binds names to values and is nested in at most one other
scope, its parent, which was opened before it. Scopes are named by numbers and are never
closed: a function value keeps the number of the scope it was made in, and whoever holds
the number sees every change made to the scope.

`Scopes.resolve` finds the nearest scope that binds a name; reading and assignment both go
through it. Only `Scopes.define` adds a binding, and only to the scope it is told.
-/

set_option autoImplicit false

namespace Scriptlet

/-- One scope: the scope around it, and what it binds itself, each name once. -/
structure Scope where
  parent : Option ScopeId
  bindings : List (Symbol × Value)

namespace Scope

/-- The value bound to a name in this very scope. -/
def find? (s : Scope) (name : Symbol) : Option Value :=
  (s.bindings.find? fun binding => binding.1 == name).map (·.2)

/-- Whether this very scope binds a name. -/
def binds (s : Scope) (name : Symbol) : Bool :=
  s.bindings.any fun binding => binding.1 == name

/-- Bindings in which every binding of a name has a new value. -/
def rebind (name : Symbol) (value : Value) (bindings : List (Symbol × Value)) :
    List (Symbol × Value) :=
  bindings.map fun binding => if binding.1 == name then (binding.1, value) else binding

/-- Gives a name its value in this scope, whether it had one or not. -/
def define (s : Scope) (name : Symbol) (value : Value) : Scope :=
  if s.binds name then { s with bindings := rebind name value s.bindings }
  else { s with bindings := s.bindings ++ [(name, value)] }

/-- Gives a name of this scope a new value. -/
def assign (s : Scope) (name : Symbol) (value : Value) : Scope :=
  { s with bindings := rebind name value s.bindings }

end Scope

/-- All scopes opened so far; a scope's number is its place. -/
structure Scopes where
  cells : Array Scope

namespace Scopes

/-- No scopes. -/
def empty : Scopes := ⟨#[]⟩

/-- Opens a scope without bindings. -/
def openScope (s : Scopes) (parent : Option ScopeId) : ScopeId × Scopes :=
  (s.cells.size, ⟨s.cells.push ⟨parent, []⟩⟩)

/-- The nearest scope that binds a name, from the scope `id` outwards. A parent is always
older than the scopes in it, so that the search ends. -/
def resolve (s : Scopes) (name : Symbol) (id : ScopeId) : Option ScopeId :=
  match s.cells[id]? with
  | none => none
  | some scope =>
    if scope.binds name then some id
    else
      match scope.parent with
      | none => none
      | some parent => if parent < id then resolve s name parent else none
termination_by id

/-- The value of a name, seen from the scope `id`. -/
def get? (s : Scopes) (id : ScopeId) (name : Symbol) : Option Value := do
  let owner ← s.resolve name id
  let scope ← s.cells[owner]?
  scope.find? name

/-- Binds a name in the scope `id`, in place of any value it has there. -/
def define (s : Scopes) (id : ScopeId) (name : Symbol) (value : Value) : Scopes :=
  ⟨s.cells.modify id fun scope => scope.define name value⟩

/-- Gives a name of the scope `owner` a new value. -/
def assignAt (s : Scopes) (owner : ScopeId) (name : Symbol) (value : Value) : Scopes :=
  ⟨s.cells.modify owner fun scope => scope.assign name value⟩

/-- Gives a name a new value in the nearest scope that binds it; nothing, if none does. -/
def assign? (s : Scopes) (id : ScopeId) (name : Symbol) (value : Value) : Option Scopes :=
  (s.resolve name id).map fun owner => s.assignAt owner name value

/-- Binds parameters to arguments in the scope `id`. -/
def defineAll (s : Scopes) (id : ScopeId) (params : List Token) (args : List Value) :
    Scopes :=
  (params.zip args).foldl (fun s pair => s.define id pair.1.lexeme pair.2) s

/-- The number of names that the scope `id` binds itself. -/
def size (s : Scopes) (id : ScopeId) : Nat :=
  match s.cells[id]? with
  | none => 0
  | some scope => scope.bindings.length

end Scopes

end Scriptlet
