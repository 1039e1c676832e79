/-!
# `Scriptlet.Command.Arguments`: the arguments of the command

The command takes the path of a script, or none for the prompt, and a flag that asks for
the journal.
-/

set_option autoImplicit false

namespace Scriptlet.Command

/-- What the command is asked to do. -/
structure Arguments where
  /-- The script to run; without one, the prompt is started. -/
  script : Option String
  /-- Whether the journal is shown. -/
  verbose : Bool
  deriving DecidableEq, Repr

namespace Arguments

/-- Reads arguments behind others. Behind `--` nothing is a flag, and there may be only one
script. -/
def parseFrom? (found : Arguments) (flags : Bool) : List String → Option Arguments
  | [] => some found
  | arg :: rest =>
    if flags && arg == "--" then parseFrom? found false rest
    else if flags && (arg == "-v" || arg == "--verbose") then
      parseFrom? { found with verbose := true } flags rest
    else if flags && arg.startsWith "-" && arg != "-" then none
    else if found.script.isSome then none
    else parseFrom? { found with script := some arg } flags rest

/-- Reads the arguments of a command; none, if they make no sense. -/
def parse? (args : List String) : Option Arguments :=
  parseFrom? ⟨none, false⟩ true args

/-- How the command is used. -/
def usage : String := "usage: scriptlet [-v | --verbose] [SCRIPT]\n"

end Arguments

end Scriptlet.Command
