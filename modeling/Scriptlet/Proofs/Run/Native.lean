import Scriptlet.Number.Order
import Scriptlet.Run.Native
import Scriptlet.Run.Operator

/-!
# `Scriptlet.Proofs.Run.Native`: what operations touch and what they give

* `Native.run_machine`: an operation that is not written in the language touches the input,
  the output, the generator and the clock, and nothing else of the machine.
* `Native.mem_of_run`, `Operator.unary_ne_callable`, `Operator.binary_ne_callable`: function
  values come from declarations only. Constants and operators give none, and other operations
  give back at most those they were given.
* `Native.runRandomRange_within`: a random number comes from its range.
-/

set_option autoImplicit false

namespace Scriptlet

/-- No constant is a function value. -/
theorem Value.ofLiteral_ne_callable (l : Literal) (f : Callable) : ofLiteral l ≠ .callable f := by
  intro h
  cases l <;> cases h

namespace Operator

/-- A unary operator gives a truth value or a number, or it fails. -/
theorem unary_ne_callable {op : Kind} {v : Value} {f : Callable} :
    unary op v ≠ .ok (.callable f) := by
  intro h
  unfold unary at h
  split at h <;> cases h

/-- An operator between two operands gives a truth value, a number or a text, or it fails. -/
theorem binary_ne_callable {op : Kind} {v w : Value} {f : Callable} :
    binary op v w ≠ .ok (.callable f) := by
  intro h
  unfold binary add arithmetic at h
  split at h
  · cases h
  · cases h
  · split at h <;> cases h
  · split at h
    · split at h <;> cases h
    · cases h

end Operator

/-- The operations that scripts find in every session make no function value. -/
theorem Native.run_ne_callable {op : Native} (hop : ∀ function, op ≠ .host function)
    {args : List Value} {m : Machine} {f : Callable} : (op.run args m).1 ≠ .ok (.callable f) := by
  intro h
  -- Only a host may give back an argument. All other functions make their replies of numbers and
  -- texts.
  cases op with
  | clock =>
      simp only [run, runClock] at h
      split at h <;> cases h
  | readLine =>
      simp only [run, runReadLine] at h
      split at h <;> cases h
  | randomRangeRounded =>
      simp only [run, runRandomRangeRounded, runRandomRange] at h
      split at h
      · split at h
        · cases h
        · split at h <;> cases h
      · cases h
  | toDouble =>
      simp only [run, convertToDouble] at h
      split at h
      · cases h
      · split at h <;> cases h
      · cases h
  | toText => cases h
  | print | printLine =>
      simp only [run, runWrite] at h
      split at h <;> cases h
  | host function => exact hop function rfl

/-- An operation that is not written in the language makes no function value. What it gives
back, it was given. -/
theorem Native.mem_of_run {op : Native} {args : List Value} {m : Machine} {f : Callable}
    (h : (op.run args m).1 = .ok (.callable f)) : .callable f ∈ args := by
  cases op with
  | host function =>
      replace h : answer function args = .ok (.callable f) := h
      unfold answer at h
      split at h
      case h_1 value _ => exact absurd (Except.ok.inj h) (Value.ofLiteral_ne_callable value f)
      case h_2 place _ =>
        cases hplace : args[place]? with
        | none =>
            rw [hplace] at h
            cases h
        | some v =>
            rw [hplace] at h
            cases h
            exact List.mem_of_getElem? hplace
      case h_3 => cases h
  | _ =>
      refine absurd h (run_ne_callable fun p hop => ?_)
      cases hop

/-- An operation that is not written in the language touches the input, the output, the
generator and the clock only. -/
theorem Native.run_machine (op : Native) (args : List Value) (m : Machine) :
    ∃ input output generator clock, (op.run args m).2 =
      { m with input := input, output := output, generator := generator, clock := clock } := by
  cases op with
  | clock =>
      refine ⟨m.input, m.output, m.generator, m.clock.read.2, ?_⟩
      simp only [run, runClock]
      split <;> rfl
  | readLine =>
      refine ⟨m.input.readLine.2, m.output, m.generator, m.clock, ?_⟩
      simp only [run, runReadLine]
      split <;> rfl
  -- Only a draw moves the generator on. Refused ranges leave it as it was.
  | randomRangeRounded =>
      simp only [run, runRandomRangeRounded, runRandomRange]
      split
      · split
        · exact ⟨m.input, m.output, m.generator, m.clock, rfl⟩
        · split
          · exact ⟨m.input, m.output, m.generator, m.clock, rfl⟩
          · exact ⟨m.input, m.output, _, m.clock, rfl⟩
      · exact ⟨m.input, m.output, m.generator, m.clock, rfl⟩
  | print | printLine => exact ⟨m.input, _, m.generator, m.clock, rfl⟩
  | toDouble | toText | host _ => exact ⟨m.input, m.output, m.generator, m.clock, rfl⟩

/-- From a range whose bounds and whose width are finite, some number is drawn that lies between the
bounds. It is rounded to a whole one. -/
theorem Native.runRandomRange_within {low high : Float} (m : Machine) (hlow : low.isFinite = true)
    (hhigh : high.isFinite = true) (hle : low ≤ high) (hwidth : (high - low).isFinite = true) :
    ∃ x, low ≤ x ∧ x ≤ high ∧
      (runRandomRange low high m).1 = .ok (.number (Binary64.roundHalfAway x)) := by
  have hrange : (!low.isFinite || !high.isFinite || high < low) = false := by
    simp [hlow, hhigh, Binary64.not_lt_of_le hle]
  obtain ⟨hlower, hupper⟩ := m.generator.between_within hle hwidth
  refine ⟨_, hlower, hupper, ?_⟩
  simp only [runRandomRange, hrange, hwidth, Bool.not_true, Bool.false_eq_true, ↓reduceIte]

end Scriptlet
