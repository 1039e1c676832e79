import Scriptlet.Run.Eval
import Scriptlet.Tree.Analysis

/-!
# `Scriptlet.Session`: one source after the other

A session runs one source after the other. Bindings, input, output and random numbers last
from one source to the next, and so do the symbols of names.

A source with an error in it is not run at all. A source that fails while it runs keeps
what it did before it failed, and the session goes on. What a source comes to is its
`Verdict`.
-/

set_option autoImplicit false

namespace Scriptlet

/-- What is noted down about the analysis of a source. -/
def Analysis.records (a : Analysis) : List Record :=
  a.scanErrors.map .staticError ++ .scanned a.tokenCount ::
    (a.parseErrors.map .staticError ++ [.parsed a.program.length a.errors.length])

/-- What a source comes to. -/
inductive Verdict where
  /-- It ran to its end. -/
  | ok
  /-- It has errors and was not run. -/
  | rejected (errors : List StaticError)
  /-- It failed while it ran. -/
  | failed (error : RuntimeError)
  /-- It could not be read. -/
  | unreadable (words : String)
  /-- It was given up because its supply of steps was used up. -/
  | starved

/-- The message of a verdict. -/
def Verdict.message : Verdict → String
  | ok => ""
  | rejected errors => StaticError.messages errors
  | failed error => error.message
  | unreadable words => "read error: " ++ words
  | starved => "out of steps"

/-- A session between two sources. -/
structure Session where
  lexicon : Lexicon
  machine : Machine

namespace Session

/-- Makes a native function known in the outermost scope. -/
def defineNative (s : Session) (name : String) (arity : Nat) (op : Native) : Session :=
  let m := s.machine.note (.registering name arity)
  let (f, m) := m.makeCallable (.native name arity op)
  let (symbol, lexicon) := s.lexicon.intern name
  ⟨lexicon, { m with scopes := m.scopes.define m.globals symbol f }⟩

/-- A session that knows the built-in functions. -/
def start (lexicon : Lexicon) (input : Reader) (output : Sink)
    (generator : Generator) (clock : Clock) : Session :=
  Native.builtins.foldl (fun s builtin => s.defineNative builtin.name builtin.arity builtin.op)
    ⟨lexicon, Machine.blank input output generator clock⟩

/-- Starts the random numbers over from a seed. -/
def seed (s : Session) (seed : UInt64) : Session :=
  { s with machine := { s.machine with generator := s.machine.generator.reseed seed } }

/-- Runs a program with a supply of `n` steps. -/
def run (s : Session) (n : Nat) (program : Program) : Verdict × Session :=
  match runProgram n program s.machine with
  | .done _ m => (.ok, { s with machine := m })
  | .failed error m => (.failed error, { s with machine := m })
  | .starved => (.starved, s)

/-- Runs a source, unless there is an error in it. -/
def eval (s : Session) (n : Nat) (source : String) : Verdict × Session :=
  let analysis := Analysis.ofSource source s.lexicon
  let s : Session := ⟨analysis.lexicon, analysis.records.foldl Machine.note s.machine⟩
  if analysis.errors.isEmpty then
    match s.run n analysis.program with
    | (.ok, s) => (.ok, { s with machine := s.machine.note (.ran analysis.program.length) })
    | other => other
  else (.rejected analysis.errors, s)

/-- Runs the source that a reader delivers, if it delivers one. -/
def evalReader (s : Session) (n : Nat) (source : Reader) : Verdict × Session :=
  match source.readAll with
  | .ok text => s.eval n text
  | .error words => (.unreadable words, s)

/-- Adds bytes at the end of the input, and says what happens when they are used up. -/
def feed (s : Session) (bytes : List UInt8) (failure : Option String) : Session :=
  let input := s.machine.input
  let input := { input with source := input.source ++ bytes, failure }
  { s with machine := { s.machine with input } }

/-- Takes out what was written so far. The room that is left stays the same. -/
def takeOutput (s : Session) : ByteArray × Session :=
  let output := s.machine.output
  (output.bytes, { s with machine := { s.machine with output := { output with bytes := .empty } } })

/-- Takes out what was noted down so far. -/
def takeJournal (s : Session) : Array Record × Session :=
  (s.machine.journal, { s with machine := { s.machine with journal := #[] } })

end Session

end Scriptlet
