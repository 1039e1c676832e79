import Scriptlet.Number.Decimal

/-!
# `Scriptlet.Number.Shortest`: the fewest digits that read back

`Decimal.shortest` writes a finite positive double with as few significant digits as
still name it: the decimal that comes out has the double's own magnitude. Of two
decimals of that length the nearer one is taken, and the larger one when both are equally
near.

For each number of digits only the two neighbours of the value on that decimal grid have
to be tried: a point of the grid that reads back as the double lies in the interval of
numbers that round to it, and so does the neighbour between it and the value. Each
candidate is read back by `Decimal.magnitude` before it is accepted, so the round trip
does not rest on any estimate made on the way. Seventeen digits always suffice; the
decimal expansion itself, which is finite, stands behind them as the last resort.
-/

set_option autoImplicit false

namespace Scriptlet.Decimal

/-- The power of ten of the leading digit of `num / den`, for a positive quotient. -/
def leadingPlace (num den : Nat) : Int :=
  if den ≤ num then ((Nat.toDigits 10 (num / den)).length : Int) - 1
  else -((Nat.toDigits 10 ((den - 1) / num)).length : Int)

/-- A quotient measured in units of a power of ten: what to divide by what. -/
def inUnits (num den : Nat) (exponent : Int) : Nat × Nat :=
  match exponent with
  | .ofNat e => (num, den * Nat.pow 10 e)
  | .negSucc e => (num * Nat.pow 10 (e + 1), den)

/-- The decimal of at most one more digit than the grid of `10 ^ exponent` asks for that
reads back as `target`, if a neighbour of `num / den` on that grid does. -/
def neighbour? (target num den : Nat) (exponent : Int) : Option Decimal :=
  let (num, den) := inUnits num den exponent
  let below := trim ⟨num / den, exponent⟩
  let above := trim ⟨num / den + 1, exponent⟩
  let nearerAbove := decide (den ≤ 2 * (num % den))
  if above.magnitude = target ∧ (nearerAbove ∨ below.magnitude ≠ target) then some above
  else if below.magnitude = target then some below
  else none

/-- The exact decimal expansion of a finite magnitude. -/
def exact (target : Nat) : Decimal :=
  let (significand, step) := Binary64.decode target
  trim ⟨significand * Nat.pow 2 step * Nat.pow 5 1074, -1074⟩

/-- The shortest decimal that reads back as the finite, positive magnitude `target`. -/
def shortest (target : Nat) : Decimal :=
  let (significand, step) := Binary64.decode target
  let num := significand * Nat.pow 2 step
  let lead := leadingPlace num Binary64.grain
  let found := (List.range 17).findSome? fun (more : Nat) =>
    neighbour? target num Binary64.grain (lead - (more : Int))
  found.getD (exact target)

end Scriptlet.Decimal
