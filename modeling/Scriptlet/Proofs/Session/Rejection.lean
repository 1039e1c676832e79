import Scriptlet.Proofs.Session.Alike
import Scriptlet.Run.SplitMix

/-!
# `Scriptlet.Proofs.Session.Rejection`: sources that are not run leave no trace

A source with errors is rejected with all of them, and a source that cannot be read is
answered with the reason. In both cases nothing is run, and nothing of the step is left in the
session but the symbols that the scan issued. These cannot be seen: whatever the session is
asked later, it answers as if it had never been given that source.
-/

set_option autoImplicit false

namespace Scriptlet

namespace Session

/-- What was taken out once is not there to be taken out again. -/
theorem emptied_emptied (s : Session) : s.emptied.emptied = s.emptied := rfl

/-- An analysis leaves records only, and these are taken out. -/
theorem machine_emptied_analysed (s : Session) (a : Analysis) :
    (s.analysed a).emptied.machine = s.emptied.machine := rfl

/-- Between two steps nothing is left of the output and the journal. -/
theorem Reachable.emptied_eq {s : Session} (h : Reachable s) : s.emptied = s := by
  cases h with
  | start tag input output generator clock => exact emptied_emptied _
  | perform n step _ => exact emptied_emptied _

/-- A step that printed nothing and left nothing behind: the machine is the same as before, and
all answers to come are those of the session in which the step was never taken. -/
structure Traceless (s : Session) (result : Answer × Session) : Prop where
  output : result.1.output = .empty
  machine : result.2.machine = s.machine
  answers : ∀ steps, result.2.answers steps = s.answers steps

/-- A session that only issued symbols is alike to what it was before. -/
theorem Reachable.alike_of_grows {s after : Session} (h : Reachable s)
    (hsound : after.lexicon.Sound) (hgrows : s.lexicon.Grows after.lexicon)
    (hmachine : after.machine = s.machine) : after.Alike Eq s := by
  refine ⟨hsound, h.alike.sound, ?_⟩
  rw [hmachine]
  exact h.alike.machine.mono (Likeness.between_le hgrows (.refl _))

/-- Analysing a source leaves no trace. -/
theorem Reachable.traceless_analysed {s : Session} (h : Reachable s) {source : String}
    {result : Answer × Session} (houtput : result.1.output = s.machine.output.bytes)
    (hafter : result.2 = (s.analysed (Analysis.ofSource source s.lexicon)).emptied) :
    s.Traceless result := by
  have hempty := h.emptied_eq
  have hknown := scan_known source h.alike.sound
  have hmachine : result.2.machine = s.machine := by
    rw [hafter, machine_emptied_analysed, hempty]
  refine ⟨?_, hmachine, fun steps => ?_⟩
  · rw [houtput, ← hempty]
    rfl
  -- The lexicon has grown, of which no answer shows anything.
  · have hlexicon : result.2.lexicon = (scan source s.lexicon).lexicon := by
      rw [hafter]
      rfl
    refine (h.alike_of_grows ?_ ?_ hmachine).answers_eq steps
    · rw [hlexicon]
      exact hknown.sound
    · rw [hlexicon]
      exact hknown.grows

/-- A step that only gives an answer leaves no trace. -/
theorem Reachable.traceless_self {s : Session} (h : Reachable s) {answer : Answer}
    (houtput : answer.output = s.machine.output.bytes) : s.Traceless (answer, s.emptied) := by
  have hempty := h.emptied_eq
  refine ⟨?_, congrArg Session.machine hempty, fun steps => by rw [hempty]⟩
  rw [houtput, ← hempty]
  rfl

end Session

/-- **Static errors are atomic.** A session that was reached in any way rejects a source in
which the scan or the parser finds an error, with the errors of the scan in order and those of
the parser in order behind them. It answers that a source cannot be read if the reader fails,
or if what it delivers is no text. Both times nothing is printed, the machine with its input,
its generator and all its scopes is as before, and every row of later answers is the one that
the session would have given without the step. -/
theorem static_errors_atomic {s : Session} (hs : s.Reachable) (n : Nat) :
    (∀ source : String,
      let scanned := scan source s.lexicon
      let parsed := parse scanned.tokens
      scanned.errors ++ parsed.errors ≠ [] →
        (s.perform n (.eval source)).1.verdict = .rejected (scanned.errors ++ parsed.errors) ∧
        s.Traceless (s.perform n (.eval source))) ∧
    ∀ reader : Reader, reader.failure ≠ none ∨ decodeText? reader.pending = none →
      (s.perform n (.reader reader)).1.verdict =
        .unreadable (reader.failure.getD invalidTextWords) ∧
      s.Traceless (s.perform n (.reader reader)) := by
  constructor
  · intro source scanned parsed herrors
    have hact : s.act n (.eval source) = _ := Session.eval_rejected n herrors
    unfold Session.perform
    rw [hact]
    exact ⟨rfl, hs.traceless_analysed rfl rfl⟩
  · intro reader hreader
    -- A failure of the reader is told first. Otherwise the bytes are at fault.
    have hread : reader.readAll = .error (reader.failure.getD invalidTextWords) := by
      unfold Reader.readAll
      cases hfailure : reader.failure with
      | some words => rfl
      | none =>
          have hdecode := hreader.resolve_left (absurd hfailure)
          rw [hdecode]
          rfl
    have hact : s.act n (.reader reader)
        = (.unreadable (reader.failure.getD invalidTextWords), s) := by
      show s.evalReader n reader = _
      unfold Session.evalReader
      rw [hread]
    unfold Session.perform
    rw [hact]
    exact ⟨rfl, hs.traceless_self rfl⟩

/-- A source with a new name and a parenthesis that is missing: the name gets its symbol, and
the session answers as before. So it does after a byte that starts no text. -/
theorem static_errors_atomic_new_name :
    let s := (Session.start (.new 0) (.ofBytes [] none) (.empty none)
      (.splitMix 0) (.steady (.ok 0))).emptied
    let after := s.perform 20 (.eval "var fresh = 1; print(fresh;")
    let unread := s.perform 20 (.reader (.ofBytes [255] none))
    s.lexicon.names.contains "fresh" = false ∧ after.2.lexicon.names.contains "fresh" = true ∧
      (∀ steps, after.2.answers steps = s.answers steps) ∧
      unread.1.verdict = .unreadable invalidTextWords ∧
      ∀ steps, unread.2.answers steps = s.answers steps := by
  intro s after unread
  have hs : s.Reachable := .start 0 _ _ _ _
  have hrejected := (static_errors_atomic hs 20).1 "var fresh = 1; print(fresh;" (by decide +kernel)
  have hunread := (static_errors_atomic hs 20).2 (.ofBytes [255] none) (.inr (by decide +kernel))
  exact ⟨by decide +kernel, by decide +kernel, hrejected.2.answers, hunread.1, hunread.2.answers⟩

end Scriptlet
