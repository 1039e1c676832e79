import Scriptlet.Number.Binary64

/-!
# `Scriptlet.Run.Generator`: where random numbers come from

How random numbers are made is not fixed here. A `Lottery` is a way to make them: a seed
determines a state, and a state determines the number that is drawn and the state behind
the draw. A draw always gives a number. All that is known of it is that it lies in the range
from which it was drawn. A `Generator` is a lottery with its state.
-/

set_option autoImplicit false

namespace Scriptlet

/-- A way to make random numbers. A state is told by a number. -/
structure Lottery where
  /-- The state that a seed determines. -/
  ofSeed : UInt64 → Nat
  /-- A random number from `low` to `high`, and the state behind the draw. -/
  draw : Nat → (low high : Float) → Float × Nat
  /-- The number lies in the range, if the range has numbers in it and its width is one. -/
  within : ∀ (state : Nat) (low high : Float), low ≤ high → (high - low).isFinite = true →
    low ≤ (draw state low high).1 ∧ (draw state low high).1 ≤ high

/-- A lottery and its state. -/
structure Generator where
  lottery : Lottery
  state : Nat

namespace Generator

/-- The generator that starts over from a seed. -/
def reseed (g : Generator) (seed : UInt64) : Generator :=
  { g with state := g.lottery.ofSeed seed }

/-- A random number from `low` to `high`. -/
def between (g : Generator) (low high : Float) : Float × Generator :=
  let (x, state) := g.lottery.draw g.state low high
  (x, { g with state })

/-- A generator draws from the range that it is asked for. -/
theorem between_within (g : Generator) {low high : Float} (h : low ≤ high)
    (hwidth : (high - low).isFinite = true) :
    low ≤ (g.between low high).1 ∧ (g.between low high).1 ≤ high :=
  g.lottery.within g.state low high h hwidth

end Generator

end Scriptlet
