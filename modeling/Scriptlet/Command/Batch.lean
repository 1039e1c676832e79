import Scriptlet.Command.Transcript

/-!
# `Scriptlet.Command.Batch`: running a script

The command that runs one script. The script reads from the command's own input. Why a script
cannot be read is told in the words that operating systems use.
-/

set_option autoImplicit false

namespace Scriptlet.Command

/-- Why there is nothing to read under a path. -/
inductive FileError where
  | notFound
  | notDirectory
  | isDirectory
  deriving DecidableEq, Repr

/-- The words for an error. -/
def FileError.message : FileError → String
  | notFound => "No such file or directory (os error 2)"
  | notDirectory => "Not a directory (os error 20)"
  | isDirectory => "Is a directory (os error 21)"

/-- The report on a script that cannot be read. -/
def unreadableScript (path words : String) : Transcript :=
  ⟨unreadableCode, .empty, "failed to read " ++ path ++ ": " ++ words ++ "\n"⟩

/-- Runs the text of a script in a session, with a supply of `n` steps. -/
def runScript (s : Session) (n : Nat) (source : String) : Transcript × Session :=
  let (verdict, s) := s.eval n source
  let (stdout, s) := s.takeOutput
  (⟨exitCode verdict, stdout, complaint verdict⟩, s)

/-- Runs the script under a path whose bytes were read, or could not be read. -/
def runFile (s : Session) (n : Nat) (path : String) (content : Except String (List UInt8)) :
    Transcript × Session :=
  match content with
  | .error words => (unreadableScript path words, s)
  | .ok bytes =>
    match decodeText? bytes with
    | none => (unreadableScript path invalidTextWords, s)
    | some source => runScript s n source

end Scriptlet.Command
