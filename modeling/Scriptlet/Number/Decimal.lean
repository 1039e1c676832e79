import Scriptlet.Number.Binary64

/-!
# `Scriptlet.Number.Decimal`: decimals and their positional text

A `Decimal` is a whole number of units, each a power of ten. It has a value in the
double-precision numbers (`magnitude`, the nearest one) and a positional text (`text`)
that never uses an exponent. `ofDigits` reads such a text back: the digits before and
behind the point name a decimal, and `magnitude` gives it its double.
-/

set_option autoImplicit false

namespace Scriptlet

/-- The number `digits * 10 ^ exponent`. -/
structure Decimal where
  digits : Nat
  exponent : Int
  deriving DecidableEq, Repr

/-- The whole number that a run of decimal digits names; no digits name zero. -/
def digitsValue (digits : List Char) : Nat :=
  digits.foldl (fun value c => 10 * value + (c.toNat - '0'.toNat)) 0

namespace Decimal

/-- The decimal written with these digits before and behind the point. -/
def ofDigits (whole fraction : List Char) : Decimal :=
  ⟨digitsValue (whole ++ fraction), -(fraction.length : Int)⟩

/-- The magnitude of the double that is closest to a decimal. -/
def magnitude (d : Decimal) : Nat :=
  match d.exponent with
  | .ofNat e => Binary64.nearest (d.digits * Nat.pow 10 e) 1
  | .negSucc e => Binary64.nearest d.digits (Nat.pow 10 (e + 1))

/-- The same number without zeros at the end of its fraction. -/
def trim (d : Decimal) : Decimal :=
  if 0 < d.digits ∧ d.digits % 10 = 0 ∧ d.exponent < 0 then
    trim ⟨d.digits / 10, d.exponent + 1⟩
  else d
termination_by d.digits
decreasing_by omega

/-- The positional text of a decimal: digits, and behind a point as many places as the
exponent asks for, with at least one digit before the point. -/
def text (d : Decimal) : List Char :=
  let digits := Nat.toDigits 10 d.digits
  match d.exponent with
  | .ofNat e => if d.digits = 0 then digits else digits ++ List.replicate e '0'
  | .negSucc e =>
    let places := e + 1
    let padded := List.replicate (places + 1 - digits.length) '0' ++ digits
    let whole := padded.length - places
    padded.take whole ++ '.' :: padded.drop whole

end Decimal

end Scriptlet
