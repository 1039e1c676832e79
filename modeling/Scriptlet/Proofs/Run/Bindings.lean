import Mathlib.Data.List.Forall2
import Scriptlet.Run.Scopes

/-!
# `Scriptlet.Proofs.Run.Bindings`: scopes that bind in the same way

Two scopes may bind corresponding names to corresponding values, in the same order
(`Scope.SameBindings`). Names correspond as `N` says, and values as `V` says. If corresponding
names are equal on both sides or on none, such scopes cannot be told apart by looking for names,
and they stay so when the same is done to both.
-/

set_option autoImplicit false

namespace Scriptlet

namespace Scope

/-- Bindings of corresponding names to corresponding values, in the same order. -/
abbrev SameBindings (N : Symbol → Symbol → Prop) (V : Value → Value → Prop) :
    List (Symbol × Value) → List (Symbol × Value) → Prop :=
  List.Forall₂ fun b b' => N b.1 b'.1 ∧ V b.2 b'.2

section

variable {N : Symbol → Symbol → Prop} {V : Value → Value → Prop} {s s' : Scope}
  {name name' : Symbol}
  (hN : ∀ {a a' b b' : Symbol}, N a a' → N b b' → (a == b) = (a' == b'))

include hN

/-- Scopes that bind the same names bind a name and its counterpart, or neither. -/
theorem binds_eq_of_same (h : SameBindings N V s.bindings s'.bindings) (hname : N name name') :
    s.binds name = s'.binds name' := by
  unfold binds
  generalize s.bindings = bindings, s'.bindings = bindings' at h
  induction h with
  | nil => rfl
  | cons hb _ ih => rw [List.any_cons, List.any_cons, hN hb.1 hname, ih]

/-- What is found under a name and its counterpart corresponds. -/
theorem find?_of_same (h : SameBindings N V s.bindings s'.bindings) (hname : N name name') :
    (s.find? name).Rel V (s'.find? name') := by
  unfold find?
  generalize s.bindings = bindings, s'.bindings = bindings' at h
  induction h with
  | nil => exact .none
  | cons hb _ ih =>
      rw [List.find?_cons, List.find?_cons, hN hb.1 hname]
      split
      · exact .some hb.2
      · exact ih

/-- Giving a name and its counterpart a new value keeps the bindings the same. -/
theorem rebind_of_same {bindings bindings' : List (Symbol × Value)}
    (h : SameBindings N V bindings bindings') (hname : N name name') {v v' : Value}
    (hv : V v v') : SameBindings N V (rebind name v bindings) (rebind name' v' bindings') := by
  induction h with
  | nil => exact .nil
  | cons hb _ ih =>
      refine .cons ?_ ih
      simp only [hN hb.1 hname]
      split
      · exact ⟨hb.1, hv⟩
      · exact hb

/-- So does defining them, whether they are new or not. -/
theorem define_of_same (h : SameBindings N V s.bindings s'.bindings) (hname : N name name')
    {v v' : Value} (hv : V v v') :
    SameBindings N V (s.define name v).bindings (s'.define name' v').bindings := by
  unfold define
  rw [binds_eq_of_same hN h hname]
  split
  · exact rebind_of_same hN h hname hv
  · exact List.rel_append h (.cons ⟨hname, hv⟩ .nil)

end

end Scope

end Scriptlet
