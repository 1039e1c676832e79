import Scriptlet.Session

/-!
# `Scriptlet.Proofs.Session.Steps`: sessions step by step

A session takes one step after the other: it runs a source, it runs what a reader delivers,
it starts the random numbers over, it makes a native function known, or it is looked at.
Each step has an `Answer`: the verdict, what was printed, what was noted down, and what was
seen. Everything printed and noted down leaves the session with the answer.

In an answer a run-time error shows its token as others see it (`Shown`): its kind, its
spelling, its constant and its line. The number under which the spelling was issued does not
show.

* `Session.Reachable`: the sessions that a new session leads to.
* `Session.eval_rejected`, `Session.eval_accepted`: what running a source comes to.
-/

set_option autoImplicit false

namespace Scriptlet

/-- What is seen of a verdict. -/
inductive Shown where
  | ok
  | rejected (errors : List StaticError)
  | failed (kind : Kind) (spelling : String) (literal : Option Literal) (line : Nat)
      (fault : Fault)
  | unreadable (words : String)
  | starved

/-- What is seen of a verdict: not the numbers of symbols. -/
def Verdict.shown : Verdict → Shown
  | .ok => .ok
  | .rejected errors => .rejected errors
  | .failed ⟨token, fault⟩ => .failed token.kind token.name token.literal token.line fault
  | .unreadable words => .unreadable words
  | .starved => .starved

/-- Whether a program failed while it ran. -/
def Shown.isFailed : Shown → Bool
  | .failed _ _ _ _ _ => true
  | _ => false

namespace Session

/-- What can be asked of a session. -/
inductive Step where
  /-- Run a source. -/
  | eval (source : String)
  /-- Run what a reader delivers. -/
  | reader (source : Reader)
  /-- Start the random numbers over. -/
  | seed (seed : UInt64)
  /-- Make a native function known. -/
  | native (name : String) (arity : Nat) (op : Native)
  /-- Look at the machine. -/
  | debug

/-- The source that a step asks for, if it asks for one that can be read. -/
def Step.source? : Step → Option String
  | .eval source => some source
  | .reader source => source.readAll.toOption
  | _ => none

/-- What a session answers. -/
structure Answer where
  verdict : Shown
  /-- What was seen, if anyone looked. -/
  sight : Option String
  /-- The bytes that were printed. -/
  output : ByteArray
  /-- What was noted down. -/
  journal : Array Record

/-- What a step comes to, before output and journal are taken out. -/
def act (n : Nat) (s : Session) : Step → Verdict × Session
  | .eval source => s.eval n source
  | .reader source => s.evalReader n source
  | .seed seed => (.ok, s.seed seed)
  | .native name arity op => (.ok, s.defineNative name arity op)
  | .debug => (.ok, s)

/-- What a step shows of the machine. -/
def sight (s : Session) : Step → Option String
  | .debug => some s.machine.description
  | _ => none

/-- The session without its output and its journal. -/
def emptied (s : Session) : Session := s.takeOutput.2.takeJournal.2

/-- Takes a step with a supply of `n` steps for programs. -/
def perform (n : Nat) (s : Session) (step : Step) : Answer × Session :=
  let (verdict, after) := s.act n step
  (⟨verdict.shown, s.sight step, after.machine.output.bytes, after.machine.journal⟩,
    after.emptied)

/-- The answers to one step after the other, each with its own supply. -/
def answers (s : Session) : List (Nat × Step) → List Answer
  | [] => []
  | (n, step) :: steps => (s.perform n step).1 :: answers (s.perform n step).2 steps

/-- The session after one step after the other. -/
def after (s : Session) : List (Nat × Step) → Session
  | [] => s
  | (n, step) :: steps => after (s.perform n step).2 steps

/-- The sessions that a new session leads to, whatever it is asked. -/
inductive Reachable : Session → Prop where
  | start (tag : Nat) (input : Reader) (output : Sink) (generator : Generator)
      (clock : Clock) :
      Reachable (start (.new tag) input output generator clock).emptied
  | perform {s : Session} (n : Nat) (step : Step) :
      Reachable s → Reachable (s.perform n step).2

/-- What holds of a session without any function, and stays true when one of the built-in
functions is made known, holds of a new session. -/
theorem start_of_builtins {motive : Session → Prop} (lexicon : Lexicon) (input : Reader)
    (output : Sink) (generator : Generator) (clock : Clock)
    (hblank : motive ⟨lexicon, .blank input output generator clock⟩)
    (hnative : ∀ s, ∀ builtin ∈ Native.builtins, motive s →
      motive (s.defineNative builtin.name builtin.arity builtin.op)) :
    motive (start lexicon input output generator clock) := by
  unfold start
  generalize Session.mk lexicon (.blank input output generator clock) = s at hblank
  -- On the functions that every session knows, which are made known one after the other.
  generalize Native.builtins = builtins at hnative
  induction builtins generalizing s with
  | nil => exact hblank
  | cons builtin builtins ih =>
      exact ih _ (hnative s builtin List.mem_cons_self hblank) fun s b hb =>
        hnative s b (List.mem_cons_of_mem _ hb)

/-- What holds of a session without any function, and stays true when a native function is
made known, holds of a new session. -/
theorem start_induction {motive : Session → Prop} (lexicon : Lexicon) (input : Reader)
    (output : Sink) (generator : Generator) (clock : Clock)
    (hblank : motive ⟨lexicon, .blank input output generator clock⟩)
    (hnative : ∀ s name arity op, motive s → motive (s.defineNative name arity op)) :
    motive (start lexicon input output generator clock) :=
  start_of_builtins lexicon input output generator clock hblank fun s _ _ => hnative s _ _ _

/-! ### Running a source -/

end Session

/-- Notes reach the journal and nothing else. -/
theorem Machine.foldl_note (records : List Record) (m : Machine) :
    records.foldl note m = { m with journal := m.journal ++ records.toArray } := by
  induction records generalizing m with
  | nil => simp
  | cons record records ih =>
      rw [List.foldl_cons, ih]
      simp [note]

namespace Session

/-- The session when a source was analysed, and not run. -/
def analysed (s : Session) (a : Analysis) : Session :=
  ⟨a.lexicon, { s.machine with journal := s.machine.journal ++ a.records.toArray }⟩

/-- An analysis does not leave the current scope. -/
@[simp] theorem analysed_current (s : Session) (a : Analysis) :
    (s.analysed a).machine.current = s.machine.current := rfl

/-- A source with errors is rejected with them, and not run. -/
theorem eval_rejected {s : Session} {source : String} (n : Nat)
    (h : (Analysis.ofSource source s.lexicon).errors ≠ []) :
    s.eval n source = (.rejected (Analysis.ofSource source s.lexicon).errors,
      s.analysed (Analysis.ofSource source s.lexicon)) := by
  unfold eval analysed
  simp [h, Machine.foldl_note]

/-- A source without errors is run. -/
theorem eval_accepted {s : Session} {source : String} (n : Nat)
    (h : (Analysis.ofSource source s.lexicon).errors = []) :
    let a := Analysis.ofSource source s.lexicon
    s.eval n source =
      match runProgram n a.program (s.analysed a).machine with
      | .done _ m => (.ok, ⟨a.lexicon, m.note (.ran a.program.length)⟩)
      | .failed error m => (.failed error, ⟨a.lexicon, m⟩)
      | .starved => (.starved, s.analysed a) := by
  unfold eval analysed run
  simp only [h, List.isEmpty_nil, if_true, Machine.foldl_note]
  cases runProgram n (Analysis.ofSource source s.lexicon).program _ <;> rfl

end Session

end Scriptlet
