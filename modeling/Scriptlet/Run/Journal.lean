import Scriptlet.Lexical.StaticError

/-!
# `Scriptlet.Run.Journal`: what a session notes down

What a session notes down about its own work, apart from what the program prints: a row of
records, each with a level and a message.
-/

set_option autoImplicit false

namespace Scriptlet

/-- How much a record matters. -/
inductive RecordLevel where
  | trace | debug | info
  deriving DecidableEq, Repr

/-- The name of a level. -/
def RecordLevel.text : RecordLevel → String
  | trace => "TRACE"
  | debug => "DEBUG"
  | info => "INFO"

/-- Something worth noting down. -/
inductive Record where
  /-- A native function was made known. -/
  | registering (name : String) (arity : Nat)
  /-- An error was found in a source. -/
  | staticError (e : StaticError)
  /-- A source was scanned. -/
  | scanned (tokens : Nat)
  /-- A source was parsed; the errors of the scan count too. -/
  | parsed (statements errors : Nat)
  /-- A function declaration was carried out. -/
  | declaring (name : String) (arity : Nat)
  /-- A function is about to be called. -/
  | calling (function : String) (arguments : Nat)
  /-- A program gave back a value, and nobody waits for it. -/
  | discarding (value : String)
  /-- A program ran to its end. -/
  | ran (statements : Nat)
  deriving DecidableEq, Repr

namespace Record

/-- The level of a record. -/
def level : Record → RecordLevel
  | registering _ _ | calling _ _ => .trace
  | ran _ => .info
  | _ => .debug

/-- The words of a record. -/
def message : Record → String
  | registering name arity => "registering native function " ++ name ++ "/" ++ toString arity
  | staticError e => "static error: " ++ e.message
  | scanned tokens => "scanned " ++ toString tokens ++ " tokens"
  | parsed statements errors =>
    "parsed " ++ toString statements ++ " top-level statements, " ++ toString errors ++
      " errors so far"
  | declaring name arity => "declaring function " ++ name ++ "/" ++ toString arity
  | calling function arguments =>
    "calling " ++ function ++ " with " ++ toString arguments ++ " arguments"
  | discarding value => "top-level return discards " ++ value
  | ran statements => "ran " ++ toString statements ++ " statements"

/-- A record on one line, its level first. -/
def text (r : Record) : String := r.level.text ++ " " ++ r.message

end Record

end Scriptlet
