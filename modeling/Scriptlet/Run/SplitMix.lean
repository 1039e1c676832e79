import Scriptlet.Number.Order
import Scriptlet.Run.Generator

/-!
# `Scriptlet.Run.SplitMix`: a small lottery

A counter that moves on by a fixed odd step, and a mixing function that scatters its bits
over a range.
-/

set_option autoImplicit false

namespace Scriptlet

namespace Generator

/-- Scatters the bits of a counter. -/
def mix (x : UInt64) : UInt64 :=
  let x := (x ^^^ (x >>> 30)) * 0xBF58476D1CE4E5B9
  let x := (x ^^^ (x >>> 27)) * 0x94D049BB133111EB
  x ^^^ (x >>> 31)

/-- A number of the range from `low` to `high`, by the bits of a counter. -/
def scatter (counter : UInt64) (low high : Float) : Float :=
  let portion := (mix counter >>> 11).toFloat / Binary64.span.toFloat / 2
  let x := portion * (high - low) + low
  if low ≤ x ∧ x ≤ high then x else low

/-- Scattered bits stay between the bounds. A number that rounding moved out of them is replaced by
the lower one. -/
theorem scatter_within (counter : UInt64) {low high : Float} (h : low ≤ high) :
    low ≤ scatter counter low high ∧ scatter counter low high ≤ high := by
  unfold scatter
  dsimp only
  split
  case isTrue hx => exact hx
  case isFalse => exact ⟨Binary64.le_self_of_le h, h⟩

/-- The lottery of a counter. -/
def counting : Lottery where
  ofSeed := UInt64.toNat
  draw state low high :=
    let counter := UInt64.ofNat state + 0x9E3779B97F4A7C15
    (scatter counter low high, counter.toNat)
  within _ _ _ h _ := scatter_within _ h

/-- The generator that counts from a seed. -/
def splitMix (seed : UInt64) : Generator := ⟨counting, seed.toNat⟩

end Generator

end Scriptlet
