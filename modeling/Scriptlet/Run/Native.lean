import Scriptlet.Run.Machine
import Scriptlet.Text.Blank

/-!
# `Scriptlet.Run.Native`: what native functions do

What the operations do that are not written in the language itself. An operation takes its
arguments, whose number was checked before, and the machine. It gives a value or a fault,
and the machine after it.
-/

set_option autoImplicit false

namespace Scriptlet

/-- What a native operation gives. -/
abbrev NativeReply := Except Fault Value × Machine

/-- An operation under the name that scripts call it by. -/
structure Builtin where
  name : String
  arity : Nat
  op : Native

namespace Native

/-- The operations that scripts find in the outermost scope, in the order in which they are
made known. -/
def builtins : List Builtin :=
  [⟨"clock", 0, clock⟩,
    ⟨"read_line", 0, readLine⟩,
    ⟨"random_range_rounded", 2, randomRangeRounded⟩,
    ⟨"to_double", 1, toDouble⟩,
    ⟨"to_string", 1, toText⟩,
    ⟨"print", 1, print⟩,
    ⟨"print_line", 1, printLine⟩]

/-- The time. -/
def runClock (m : Machine) : NativeReply :=
  let (reading, later) := m.clock.read
  let m := { m with clock := later }
  match reading with
  | .ok seconds => (.ok (.number seconds), m)
  | .error words => (.error (.clock words), m)

/-- A line without the characters that end it. -/
def chompLine (line : String) : String :=
  String.ofList (Text.dropEndWhile (fun c => c == '\n' || c == '\r') line.toList)

/-- The next line of the input, without its end, or nil if there is none. -/
def runReadLine (m : Machine) : NativeReply :=
  let (line, input) := m.input.readLine
  let m := { m with input }
  match line with
  | .ok (some line) => (.ok (.string (chompLine line)), m)
  | .ok none => (.ok .nil, m)
  | .error words => (.error (.io words), m)

/-- The words for a range. -/
def rangeText (low high : Float) : String :=
  "[" ++ Number.text low ++ ", " ++ Number.text high ++ "]"

/-- A random number from a range of numbers, rounded to a whole one. -/
def runRandomRange (low high : Float) (m : Machine) : NativeReply :=
  if !low.isFinite || !high.isFinite || high < low then
    (.error (.invalidArgument ("invalid random range " ++ rangeText low high)), m)
  else if !(high - low).isFinite then
    (.error (.invalidArgument ("random range " ++ rangeText low high ++ " is too wide")), m)
  else
    let (x, generator) := m.generator.between low high
    (.ok (.number (Binary64.roundHalfAway x)), { m with generator })

/-- A random whole number from the range that two numbers bound. -/
def runRandomRangeRounded (low high : Value) (m : Machine) : NativeReply :=
  match low, high with
  | .number low, .number high => runRandomRange low high m
  | _, _ =>
    (.error (.invalidArgument "random_range_rounded expects two numbers"), m)

/-- A value as a number: numbers are themselves, and texts are read. -/
def convertToDouble : Value → Except Fault Value
  | .number x => .ok (.number x)
  | .string s =>
    match Number.read? (Text.trim s.toList) with
    | some x => .ok (.number x)
    | none => .error (.conversion ("\"" ++ s ++ "\"") "number")
  | other => .error (.conversion other.typeName "number")

/-- Writes a text. -/
def runWrite (text : String) (m : Machine) : NativeReply :=
  let complete := m.output.fits text
  (if complete then .ok .nil else .error (.io sinkFullWords), m.write text)

/-- What a host function answers. -/
def answer (function : HostFunction) (args : List Value) : Except Fault Value :=
  match function (args.map Value.look) with
  | .ok (.constant value) => .ok (.ofLiteral value)
  | .ok (.argument place) => .ok (args[place]?.getD .nil)
  | .error fault => .error fault

/-- Carries out an operation. Arguments that are missing count as nil. -/
def run (op : Native) (args : List Value) (m : Machine) : NativeReply :=
  let arg := args.headD .nil
  match op with
  | clock => runClock m
  | readLine => runReadLine m
  | randomRangeRounded => runRandomRangeRounded arg (args.tail.headD .nil) m
  | toDouble => (convertToDouble arg, m)
  | toText => (.ok (.string arg.text), m)
  | print => runWrite arg.text m
  | printLine => runWrite (arg.text ++ "\n") m
  | host function => (answer function args, m)

end Native

end Scriptlet
