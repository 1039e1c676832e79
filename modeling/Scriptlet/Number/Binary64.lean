/-!
# `Scriptlet.Number.Binary64`: doubles as exact quotients

A double is a sign and a *magnitude*: the low 63 bits of its encoding, read as a
natural number. Magnitudes are ordered like the absolute values they stand for, and
the magnitude `step * 2 ^ 52 + extra` of a finite double stands for

    significand * 2 ^ step / 2 ^ 1074.

* `decode` splits a magnitude into significand and step.
* `nearest` is the magnitude closest to a quotient of natural numbers, a tie going to
  the even neighbour. The sum `step * 2 ^ 52 + significand` encodes every case at once:
  a subnormal number has step zero and no hidden bit, and a significand that rounds up
  to `2 ^ 53` carries into the next step by itself.
* `Binary64.toFloat` and `Binary64.ofFloat` pass between doubles and signed magnitudes.
-/

set_option autoImplicit false

namespace Scriptlet.Binary64

/-- The number of fractions that share one exponent, two to the power 52. -/
def span : Nat := Nat.pow 2 52

/-- The magnitude of infinity. Finite numbers lie below it, and what is not a number
above it. -/
def infinity : Nat := 2047 * span

/-- The denominator of the finest grid, two to the power 1074: every finite double is a
whole multiple of its inverse. -/
def grain : Nat := Nat.pow 2 1074

/-- A finite magnitude as `(significand, step)`, which stands for
`significand * 2 ^ step / grain`. -/
def decode (magnitude : Nat) : Nat × Nat :=
  if magnitude < span then (magnitude, 0)
  else (magnitude % span + span, magnitude / span - 1)

/-- The whole number closest to `num / den`; of two equally close ones, the even one. -/
def roundHalfEven (num den : Nat) : Nat :=
  let quotient := num / den
  let twice := 2 * (num % den)
  if twice < den then quotient
  else if den < twice then quotient + 1
  else quotient + quotient % 2

/-- The magnitude closest to `num / den`. The step is the least one for which the
significand needs no more than 53 bits; beyond the largest finite number the result is
infinity. -/
def nearest (num den : Nat) : Nat :=
  let scaled := num * grain
  let step := Nat.log2 (scaled / den) - 52
  min infinity (step * span + roundHalfEven scaled (den * Nat.pow 2 step))

/-- The double with this sign and magnitude. -/
def toFloat (negative : Bool) (magnitude : Nat) : Float :=
  Float.ofBits (UInt64.ofNat (if negative then 2048 * span + magnitude else magnitude))

/-- The sign and the magnitude of a double. -/
def ofFloat (x : Float) : Bool × Nat :=
  let bits := x.toBits.toNat
  (decide (2048 * span ≤ bits), bits % (2048 * span))

/-- The whole number closest to a finite double, halves going away from zero. -/
def roundHalfAway (x : Float) : Float :=
  let (negative, magnitude) := ofFloat x
  if infinity ≤ magnitude then x
  else
    let (significand, step) := decode magnitude
    toFloat negative (nearest ((2 * significand * Nat.pow 2 step + grain) / (2 * grain)) 1)

end Scriptlet.Binary64
