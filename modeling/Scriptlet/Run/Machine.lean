import Scriptlet.Run.Clock
import Scriptlet.Run.Generator
import Scriptlet.Run.Journal
import Scriptlet.Run.Reader
import Scriptlet.Run.Scopes
import Scriptlet.Run.Sink

/-!
# `Scriptlet.Run.Machine`: all that a program sees and changes

All that a running program can see or change: the scopes, among them the current one, the
input and the output, the generator behind random numbers, and the clock. The machine also
counts the identities it gave to functions, and it keeps the journal, which no program can
read.
-/

set_option autoImplicit false

namespace Scriptlet

/-- The state of a running program. -/
structure Machine where
  scopes : Scopes
  /-- The outermost scope. -/
  globals : ScopeId
  /-- The scope in which names are looked up and declared now. -/
  current : ScopeId
  /-- How many function values were made; each has its own number below this one. -/
  identities : Nat
  input : Reader
  output : Sink
  generator : Generator
  clock : Clock
  /-- What was noted down so far. -/
  journal : Array Record

namespace Machine

/-- A machine with one empty scope. -/
def blank (input : Reader) (output : Sink) (generator : Generator)
    (clock : Clock) : Machine :=
  let (globals, scopes) := Scopes.empty.openScope none
  ⟨scopes, globals, globals, 0, input, output, generator, clock, #[]⟩

/-- Notes down a record. -/
def note (m : Machine) (record : Record) : Machine :=
  { m with journal := m.journal.push record }

/-- Writes a text to the output, as far as there is room for it. -/
def write (m : Machine) (text : String) : Machine :=
  { m with output := m.output.write text }

/-- The value of a name, seen from the current scope. -/
def get? (m : Machine) (name : Symbol) : Option Value :=
  m.scopes.get? m.current name

/-- Binds a name in the current scope. -/
def define (m : Machine) (name : Symbol) (value : Value) : Machine :=
  { m with scopes := m.scopes.define m.current name value }

/-- The nearest scope that binds a name, seen from the current scope. -/
def owner? (m : Machine) (name : Symbol) : Option ScopeId :=
  m.scopes.resolve name m.current

/-- Gives a name of the scope `owner` a new value. -/
def assignAt (m : Machine) (owner : ScopeId) (name : Symbol) (value : Value) : Machine :=
  { m with scopes := m.scopes.assignAt owner name value }

/-- Opens a scope inside another one. The current scope stays the same. -/
def openScope (m : Machine) (parent : ScopeId) : ScopeId × Machine :=
  let (id, scopes) := m.scopes.openScope (some parent)
  (id, { m with scopes })

/-- Goes to a scope. -/
def enter (m : Machine) (scope : ScopeId) : Machine := { m with current := scope }

/-- Makes a function value, which equals no function value made before. -/
def makeCallable (m : Machine) (code : Code) : Value × Machine :=
  (.callable ⟨m.identities, code⟩, { m with identities := m.identities + 1 })

/-- Whether the current scope is not the outermost one. -/
def isNested (m : Machine) : Bool := m.current != m.globals

/-- All that is shown of a machine from outside. -/
def description (m : Machine) : String :=
  "Evaluator \x7b globals: " ++ toString (m.scopes.size m.globals) ++ ", nested: " ++
    (if m.isNested then "true" else "false") ++ ", .. \x7d"

end Machine

end Scriptlet
