import Scriptlet.Session

/-!
# `Scriptlet.Command.Transcript`: what a command leaves behind

A command writes to two outputs and ends with a code. `Transcript` holds all three; the
codes tell why a command ended.
-/

set_option autoImplicit false

namespace Scriptlet.Command

/-- The code of a command that did its work. -/
def successCode : UInt32 := 0

/-- The code of a command whose source has errors. -/
def rejectedCode : UInt32 := 65

/-- The code of a command that could not read its source. -/
def unreadableCode : UInt32 := 66

/-- The code of a command whose program failed. -/
def failedCode : UInt32 := 70

/-- The code that a verdict ends a command with. -/
def exitCode : Verdict → UInt32
  | .ok => successCode
  | .rejected _ => rejectedCode
  | .failed _ => failedCode
  | .unreadable _ => unreadableCode
  | .starved => failedCode

/-- What is reported about a verdict: nothing if all went well, else one more line. -/
def complaint : Verdict → String
  | .ok => ""
  | verdict => verdict.message ++ "\n"

/-- All that can be seen of a command that ended. -/
structure Transcript where
  code : UInt32
  stdout : ByteArray
  stderr : String

end Scriptlet.Command
