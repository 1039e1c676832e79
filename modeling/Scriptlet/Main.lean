import Scriptlet.Command.Arguments
import Scriptlet.Command.Batch
import Scriptlet.Command.Prompt
import Scriptlet.Run.SplitMix
import Std.Time.DateTime.Timestamp

/-!
# `Scriptlet.Main`: the command line

Reads files and standard input, runs the pure commands on them, and writes what they leave
behind.

A command asks for input and for the time only when it needs them. It is run on what was read
so far, as on an input and on a clock that fail behind that; if it met a failure of this kind,
more is read and it is run again. A failure ends a program, so what a command wrote the first
time is the beginning of what it writes the second time, and is not written twice.
-/

set_option autoImplicit false

namespace Scriptlet.Main

/-- The supply of steps for one source. -/
def steps : Nat := 0x1000000000000000

/-- The code of a command that was called with arguments that make no sense. -/
def usageCode : UInt32 := 2

/-- The time in seconds. -/
def readClock : IO (Except String Float) := do
  let now ← Std.Time.Timestamp.now
  let nanoseconds := now.toNanosecondsSinceUnixEpoch.val
  if nanoseconds < 0 then return .error "second time provided was later than self"
  else return .ok (nanoseconds.toNat.toFloat / 1000000000)

/-- A seed that differs from run to run. -/
def readSeed : IO UInt64 := do
  let bytes ← IO.getRandomBytes 8
  return bytes.toList.foldl (fun seed byte => 256 * seed + byte.toUInt64) 0

/-- Input up to the end of a line. -/
partial def readLineBytes (input : IO.FS.Stream) (early : ByteArray) : IO ByteArray := do
  let byte ← input.read 1
  let line := early ++ byte
  if byte.isEmpty || byte.toList == [newlineByte] then return line
  else readLineBytes input line

/-- Input up to its end. -/
partial def readAllBytes (input : IO.FS.Stream) (early : ByteArray) : IO ByteArray := do
  let portion ← input.read 65536
  if portion.isEmpty then return early else readAllBytes input (early ++ portion)

/-- More input: one line of what somebody types, or all of what is waiting. None is left
when the result is empty. -/
def readMore : IO (List UInt8) := do
  let input ← IO.getStdin
  let bytes ← if ← input.isTty then readLineBytes input .empty else readAllBytes input .empty
  return bytes.toList

/-- Writes the part of an output that was not written before. -/
def writeFrom (written : Nat) (bytes : ByteArray) : IO Nat := do
  let output ← IO.getStdout
  output.write (bytes.extract written bytes.size)
  output.flush
  return bytes.size

/-- Shows the journal of a session. -/
def showJournal (args : Command.Arguments) (s : Session) : IO Unit := do
  if args.verbose then
    for record in s.machine.journal do
      if record.level != .trace then IO.eprintln record.text

/-- The words with which an input or a clock fails of which more may come. -/
def waitingWords : String := "more input is needed"

/-- Whether more input may come to a session. -/
def isWaiting (s : Session) : Bool := s.machine.input.failure.isSome

/-- The session with a clock that gives these readings. -/
def withReadings (s : Session) (readings : Array (Except String Float)) : Session :=
  { s with machine := { s.machine with clock := .ofReadings readings waitingWords } }

/-- Runs a command on a session, as often as it needs one more reading of the clock or more
input. -/
partial def attempt {α : Type} (run : Session → α) (session : α → Session)
    (output : α → ByteArray) (hungry : α → Bool) (s : Session)
    (readings : Array (Except String Float)) (written : Nat) : IO α := do
  let result := run (withReadings s readings)
  let written ← writeFrom written (output result)
  if readings.size < (session result).machine.clock.taken then
    attempt run session output hungry s (readings.push (← readClock)) written
  else if isWaiting s && hungry result then
    let more ← readMore
    let failure := if more.isEmpty then none else some waitingWords
    attempt run session output hungry (s.feed more failure) readings written
  else return result

/-- The bytes of a file, or why it cannot be read. -/
def readScript (path : String) : IO (Except String (List UInt8)) := do
  try
    let bytes ← IO.FS.readBinFile path
    return .ok bytes.toList
  catch
    | .noFileOrDirectory .. => return .error Command.FileError.notFound.message
    | .inappropriateType _ 21 _ => return .error Command.FileError.isDirectory.message
    | .inappropriateType .. => return .error Command.FileError.notDirectory.message
    | e => return .error (toString e)

/-- Runs a script. -/
def runFile (args : Command.Arguments) (path : String) : IO UInt32 := do
  let content ← readScript path
  let session := Session.start (.new 0) (.ofBytes [] waitingWords) (.empty none)
    (.splitMix (← readSeed)) (.ofReadings #[] waitingWords)
  let (transcript, session) ←
    attempt (fun s => Command.runFile s steps path content) (fun r => r.2) (fun r => r.1.stdout)
      (fun r => r.2.machine.input.metEnd) session #[] 0
  showJournal args session
  IO.eprint transcript.stderr
  return transcript.code

/-- Runs one line after the other. -/
partial def runPrompt (args : Command.Arguments) (s : Session) : IO UInt32 := do
  let round ←
    attempt (Command.round steps) (fun r => r.session)
      (fun r => r.session.machine.output.bytes) (fun r => r.hungry) s #[] 0
  showJournal args round.session
  IO.eprint round.stderr
  match round.code with
  | some code => return code
  | none => runPrompt args round.session.takeOutput.2.takeJournal.2

end Scriptlet.Main

/-- Runs the script that the arguments name, or the prompt. -/
def main (args : List String) : IO UInt32 := do
  match Scriptlet.Command.Arguments.parse? args with
  | none =>
    IO.eprint Scriptlet.Command.Arguments.usage
    return Scriptlet.Main.usageCode
  | some args =>
    match args.script with
    | some path => Scriptlet.Main.runFile args path
    | none =>
      let session := Scriptlet.Session.start (.new 0)
        (.unbuffered [] Scriptlet.Main.waitingWords) (.empty none)
        (.splitMix (← Scriptlet.Main.readSeed)) (.ofReadings #[] Scriptlet.Main.waitingWords)
      Scriptlet.Main.runPrompt args session
