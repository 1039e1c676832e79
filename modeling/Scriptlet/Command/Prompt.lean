import Scriptlet.Command.Transcript

/-!
# `Scriptlet.Command.Prompt`: running lines as they come

The command that runs one line after the other, each as soon as it was typed. Lines and the
program's own reading come from the same input: the prompt takes the next line that the
program has not taken, and the program goes on behind the line that is being run. For this
to be right the program's reader must not fetch more than it delivers
(`Reader.unbuffered`).

Errors are reported and the session goes on. It ends with the input, or at a line that is
no text.
-/

set_option autoImplicit false

namespace Scriptlet.Command

/-- What asks for a line. -/
def promptText : String := "> "

/-- The session of a prompt after one line. -/
structure Round where
  session : Session
  /-- What was reported on the line. -/
  stderr : String
  /-- The code, if the prompt ends here. -/
  code : Option UInt32
  /-- Whether there was not enough input, or none: with more input behind it, this round
  might have gone on. -/
  hungry : Bool

/-- Takes the next line from the source of a session's input. -/
def takePromptLine (s : Session) : List UInt8 × Session :=
  let (line, source) := cutLine s.machine.input.source
  (line, { s with machine := { s.machine with input := { s.machine.input with source } } })

/-- Asks for a line. -/
def ask (s : Session) : Session :=
  { s with machine := s.machine.write promptText }

/-- Asks for one line and runs it, with a supply of `n` steps. -/
def round (n : Nat) (s : Session) : Round :=
  let (line, s) := takePromptLine (ask s)
  if line.isEmpty then ⟨s, "", some successCode, true⟩
  else
    match decodeText? line with
    | none =>
      ⟨s, "failed to read input: " ++ invalidTextWords ++ "\n", some unreadableCode,
        !endsLine line⟩
    | some source =>
      let (verdict, s) := s.eval n source
      ⟨s, complaint verdict, none, !endsLine line || s.machine.input.metEnd⟩

/-- Asks for lines until the prompt ends, but not more often than `rounds` times. Gives the
code, what was reported, and the session. -/
def rounds (n : Nat) : Nat → Session → UInt32 × String × Session
  | 0, s => (successCode, "", s)
  | more + 1, s =>
    let r := round n s
    match r.code with
    | some code => (code, r.stderr, r.session)
    | none =>
      let (code, stderr, s) := rounds n more r.session
      (code, r.stderr ++ stderr, s)

/-- Runs all lines of the input of a session. Each line takes at least one byte of the
input, so that there are fewer lines than rounds. -/
def runPrompt (s : Session) (n : Nat) : Transcript × Session :=
  let (code, stderr, s) := rounds n (s.machine.input.source.length + 1) s
  let (stdout, s) := s.takeOutput
  (⟨code, stdout, stderr⟩, s)

end Scriptlet.Command
