/-!
# `Scriptlet.Number.Order`: how doubles compare

Doubles are compared by what they unpack to. The comparison of two of them has an outcome unless
one of them is not a number, and turns round with the two.

* `Binary64.le_self_of_le`: a double that can be compared is not above itself.
* `Binary64.not_lt_of_le`: the two orders agree.
-/

set_option autoImplicit false

namespace Scriptlet.Binary64

open Float.Model (UnpackedFloat)

/-- Comparing the other way round turns the outcome round, if there is one. -/
theorem compare_swap (a b : UnpackedFloat) : b.compare a = (a.compare b).map Ordering.swap := by
  cases a with
  | notANumber => cases b <;> rfl
  | infinity s =>
    cases b with
    | infinity t => cases s <;> cases t <;> rfl
    | notANumber => cases s <;> rfl
    | zero t => cases s <;> rfl
    | finite t m e hm => cases s <;> rfl
  | zero s =>
    cases b with
    | infinity t => cases t <;> rfl
    | notANumber => rfl
    | zero t => rfl
    | finite t m e hm => cases t <;> rfl
  | finite s m e hm =>
    cases b with
    | infinity t => cases t <;> rfl
    | notANumber => cases s <;> rfl
    | zero t => cases s <;> rfl
    | finite t m' e' hm' =>
      -- Of two negative numbers the one that is closer to zero is the greater one.
      cases s <;> cases t
      · show some ((compare e' e).then (compare m' m)).swap =
          some ((compare e e').then (compare m m')).swap.swap
        rw [Ordering.swap_then, Int.compare_swap, Nat.compare_swap, Ordering.swap_swap]
      · rfl
      · rfl
      · show some ((compare e' e).then (compare m' m)) =
          some ((compare e e').then (compare m m')).swap
        rw [Ordering.swap_then, Int.compare_swap, Nat.compare_swap]

/-- What can be compared at all is equal to itself. -/
theorem compare_self {a : UnpackedFloat} (h : a ≠ .notANumber) : a.compare a = some .eq := by
  cases a with
  | notANumber => exact absurd rfl h
  | zero => rfl
  | infinity s => cases s <;> rfl
  | finite s m e hm =>
    have hparts : (compare e e).then (compare m m) = .eq := by
      rw [Std.compare_self, Std.compare_self]
      rfl
    cases s
    · show some ((compare e e).then (compare m m)).swap = some .eq
      rw [hparts]
      rfl
    · show some ((compare e e).then (compare m m)) = some .eq
      rw [hparts]

/-- Two numbers are in order when their comparison has an outcome that says so. -/
theorem le_iff {x y : Float} : x ≤ y ↔
    (x.toModel.unpack.compare y.toModel.unpack).any Ordering.isLE = true := by
  show decide (_ ≤ _) = true ↔ _
  rw [decide_eq_true_eq]
  rfl

/-- The strict order is one of the outcomes. -/
theorem compare_of_lt {x y : Float} (h : x < y) :
    x.toModel.unpack.compare y.toModel.unpack = some .lt := by
  have hmodel : x.toModel < y.toModel := of_decide_eq_true h
  exact beq_iff_eq.1 hmodel

/-- A number that can be compared at all is not above itself. -/
theorem le_self_of_le {x y : Float} (h : x ≤ y) : x ≤ x := by
  rw [le_iff] at h ⊢
  have hnumber : x.toModel.unpack ≠ .notANumber := by
    intro hx
    rw [hx] at h
    cases h
  rw [compare_self hnumber]
  rfl

/-- Numbers in order are not in the opposite strict order. -/
theorem not_lt_of_le {x y : Float} (h : x ≤ y) : ¬ y < x := by
  intro hlt
  rw [le_iff, compare_swap, compare_of_lt hlt] at h
  cases h

end Scriptlet.Binary64
