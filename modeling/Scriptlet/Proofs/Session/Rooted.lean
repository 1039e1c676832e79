import Scriptlet.Proofs.Run.Course
import Scriptlet.Proofs.Run.Rooted
import Scriptlet.Proofs.Session.Sound
import Scriptlet.Run.SplitMix

/-!
# `Scriptlet.Proofs.Session.Rooted`: the scopes of a session all lead to the outermost one

Whatever a session was asked, and wherever in a program it is, its scopes are in order: from each
of them the way outward comes to an end, and this end is the outermost scope. No scope is ever
moved to another place.

* `orderUpkeep_watch`: the machines in the course of a run are in order, and each has grown out of
  those before it.
* `Session.Reachable.inOrder`, `Session.Reachable.grown_after`: the same from step to step.
* `scope_chains_wellFormed`: both together, for all sessions and all moments.
-/

set_option autoImplicit false

namespace Scriptlet

/-! ### In the course of a run -/

/-- Each machine in the row is in order and has grown out of those before it. -/
def Machine.GrownAlong (m : Machine) (course : List (Work × Machine)) (ending : Option Machine) :
    Prop :=
  (m :: (course.map (·.2) ++ ending.toList)).Pairwise Machine.Grown

/-- Two rows of which the second starts where the first ends. -/
theorem pairwise_join {α : Type} {R : α → α → Prop} (hR : ∀ x y z, R x y → R y z → R x z)
    {xs ys : List α} {y : α} (h : (xs ++ [y]).Pairwise R) (h' : (y :: ys).Pairwise R) :
    (xs ++ ys).Pairwise R := by
  rw [List.pairwise_append] at h ⊢
  rw [List.pairwise_cons] at h'
  refine ⟨h.1, h'.2, fun a ha b hb => ?_⟩
  exact hR a y b (h.2.2 a ha y (by simp)) (h'.1 b hb)

/-- A machine that comes back to a scope that exists has still grown. -/
theorem Machine.Grown.enter {m m₁ : Machine} (h : m.Grown m₁) {scope : ScopeId}
    (hscope : scope < m₁.scopes.count) : m.Grown (m₁.enter scope) where
  inOrder := ⟨⟨h.inOrder.wellFormed.nested, hscope, h.inOrder.wellFormed.globals,
    h.inOrder.wellFormed.holds⟩, h.inOrder.rooted⟩
  globals := h.globals
  spreads := h.spreads

/-- From the start of a run on, each moment finds a machine that has grown from the one before. -/
theorem orderUpkeep_watch : orderUpkeep.Watch Machine.GrownAlong where
  trans := by
    intro m m₁ course course' ending h h'
    unfold Machine.GrownAlong at h h' ⊢
    rw [List.map_append, List.append_assoc, ← List.cons_append]
    exact pairwise_join (R := Machine.Grown) (fun _ _ _ => .trans) h h'
  starved h := by
    unfold Machine.GrownAlong at h ⊢
    rw [← List.cons_append, List.pairwise_append] at h
    simpa using h.1
  silent _ hchange _ := by
    simpa [Machine.GrownAlong] using hchange.1
  start hm _ _ := by
    have hrefl := orderUpkeep_lawful.refl hm
    simpa [Machine.GrownAlong] using hrefl.1
  native {m _ op _} hm hwork hnative := by
    have hrefl := orderUpkeep_lawful.refl hm
    have hrun := orderUpkeep_lawful.native op hm (hwork.args hnative)
    simp [Machine.GrownAlong, hrefl.1, hrun.1]
  inside := by
    intro m parent params args course ending hm hinside h
    have hgrown : m.Grown (m.inside parent params args) :=
      hm.grown hinside.wellFormed rfl (m.inside_spreads parent params args)
    obtain ⟨hfirst, hrest⟩ := List.pairwise_cons.1 h
    have hcourse : (m :: (course.map (·.2) ++ ending.toList)).Pairwise Machine.Grown :=
      List.pairwise_cons.2 ⟨fun m₁ hm₁ => hgrown.trans (hfirst m₁ hm₁), hrest⟩
    cases ending with
    | none => exact hcourse
    | some m₁ =>
        -- No scope goes away, so the one to come back to is still there.
        have hcount := (hgrown.trans (hfirst m₁ (by simp))).spreads.count
        have hcurrent : m.current < m₁.scopes.count :=
          Nat.lt_of_lt_of_le hm.wellFormed.current hcount
        show (m :: (course.map (·.2) ++ [m₁.enter m.current])).Pairwise Machine.Grown
        rw [← List.cons_append, List.pairwise_append] at hcourse ⊢
        refine ⟨hcourse.1, List.pairwise_singleton _ _, fun m₀ hm₀ m₂ hm₂ => ?_⟩
        cases List.mem_singleton.1 hm₂
        exact (hcourse.2.2 m₀ hm₀ m₁ (by simp)).enter hcurrent

/-! ### From step to step -/

namespace Machine.InOrder

variable {m m₁ : Machine}

/-- Records, input, output and random numbers do not matter to the scopes. -/
theorem grown_of_eq (h : m.InOrder) (hscopes : m₁.scopes = m.scopes)
    (hcurrent : m₁.current = m.current) (hglobals : m₁.globals = m.globals) : m.Grown m₁ :=
  h.grown (h.wellFormed.of_eq hscopes hcurrent hglobals) hglobals
    (hscopes ▸ (Scopes.Grows.refl _).spreads rfl)

/-- A machine in order has grown from itself by nothing. -/
theorem grown_refl (h : m.InOrder) : m.Grown m := h.grown_of_eq rfl rfl rfl

end Machine.InOrder

namespace Session

variable {s : Session}

/-- From before a source until after it, all machines are in order. -/
theorem grownAlong_course (h : s.machine.InOrder) (n : Nat) (source : String) :
    s.machine.GrownAlong (s.course n source) (s.ending? n source) :=
  orderUpkeep_watch.source_sees orderUpkeep_lawful n source h fun _ _ => trivial

/-- A source lets the machine grow, however it ends. -/
theorem grown_eval (h : s.machine.InOrder) (n : Nat) (source : String) :
    s.machine.Grown (s.eval n source).2.machine :=
  (orderUpkeep_lawful.source n source h fun _ _ => trivial).1

/-- A native function that is made known is bound in a scope that exists. -/
theorem grown_defineNative (h : s.machine.InOrder) (name : String) (arity : Nat) (op : Native) :
    s.machine.Grown (s.defineNative name arity op).machine :=
  h.grown (wellFormed_defineNative h.wellFormed name arity op) rfl
    ((Scopes.grows_define _ _ _).spreads (Scopes.count_define _ _ _ _))

/-- Whatever a session is asked, its machine grows. -/
theorem grown_act (h : s.machine.InOrder) (n : Nat) (step : Step) :
    s.machine.Grown (s.act n step).2.machine := by
  cases step with
  | eval source => exact grown_eval h n source
  | reader source =>
      show s.machine.Grown (s.evalReader n source).2.machine
      unfold evalReader
      split
      · exact grown_eval h n _
      · exact h.grown_refl
  | seed seed => exact h.grown_of_eq rfl rfl rfl
  | native name arity op => exact grown_defineNative h name arity op
  | debug => exact h.grown_refl

/-- Taking out output and journal leaves the scopes in order. -/
theorem inOrder_emptied (h : s.machine.InOrder) : s.emptied.machine.InOrder :=
  h.of_eq rfl rfl rfl

/-- A step lets the machine grow. -/
theorem grown_perform (h : s.machine.InOrder) (n : Nat) (step : Step) :
    s.machine.Grown (s.perform n step).2.machine := by
  have hact := grown_act h n step
  exact hact.trans (hact.inOrder.grown_of_eq rfl rfl rfl)

/-- The scopes of every session that can be reached are in order. -/
theorem Reachable.inOrder (h : Reachable s) : s.machine.InOrder := by
  induction h with
  | start tag input output generator clock =>
      refine inOrder_emptied (start_induction (motive := fun s => s.machine.InOrder)
        (.new tag) input output generator clock ?_ ?_)
      · exact Machine.inOrder_blank _ _ _ _
      · exact fun s name arity op hs => (grown_defineNative hs name arity op).inOrder
  | perform n step _ ih => exact (grown_perform ih n step).inOrder

/-- Later on the session has grown. -/
theorem grown_after (h : s.machine.InOrder) (steps : List (Nat × Step)) :
    s.machine.Grown (s.after steps).machine := by
  induction steps generalizing s with
  | nil => exact h.grown_refl
  | cons step steps ih =>
      have hstep := grown_perform h step.1 step.2
      exact hstep.trans (ih hstep.inOrder)

end Session

/-- **All scopes lead to the outermost one, at all times.** In every session that can be reached,
and at every moment in the course of the run of a source, even if the run fails later or never
ends, the scopes are well chained: every way outward is finite and comes to no scope twice, it
ends at the one outermost scope, the current scope and those that functions remember exist, and
a name that is not found is not bound in the outermost scope either. And from any of these
moments to any later one, no scope goes away and none comes to lie inside another one than
before. -/
theorem scope_chains_wellFormed (s : Session) (h : s.Reachable) :
    s.machine.WellChained ∧
    (∀ steps, (s.after steps).machine.globals = s.machine.globals ∧
      s.machine.scopes.Grows (s.after steps).machine.scopes) ∧
    ∀ n source,
      (∀ moment ∈ s.course n source, moment.2.WellChained) ∧
      (s.machine :: ((s.course n source).map (·.2) ++ (s.ending? n source).toList)).Pairwise
        fun m m₁ => m₁.globals = m.globals ∧ m.scopes.Grows m₁.scopes := by
  refine ⟨h.inOrder.wellChained, fun steps => ?_, fun n source => ⟨?_, ?_⟩⟩
  · have hgrown := Session.grown_after h.inOrder steps
    exact ⟨hgrown.globals, hgrown.spreads.toGrows⟩
  · intro moment hmoment
    have hfirst := (List.pairwise_cons.1 (Session.grownAlong_course h.inOrder n source)).1
    have hmem : moment.2 ∈ (s.course n source).map (·.2) := List.mem_map_of_mem hmoment
    exact (hfirst moment.2 (List.mem_append_left _ hmem)).inOrder.wellChained
  · exact (Session.grownAlong_course h.inOrder n source).imp fun hgrown =>
      ⟨hgrown.globals, hgrown.spreads.toGrows⟩

/-- A function inside a function fails. While it runs, its own scope is inside that of the other
function, and the way outward from there ends in the outermost scope; when the source has failed,
the scopes are still there. -/
theorem scope_chains_wellFormed_failure :
    let source := "fun f() \x7b fun g() \x7b x; \x7d g(); \x7d f();"
    let s := (Session.start (.new 0) (.ofBytes [] none) (.empty none)
      (.splitMix 0) (.steady (.ok 0))).emptied
    let after := s.perform 40 (.eval source)
    after.1.verdict.isFailed = true ∧ after.2.machine.WellChained ∧
      after.2.machine.scopes.parent? 2 = some 1 ∧
      ∃ moment ∈ s.course 40 source, moment.2.current = 2 ∧ moment.2.WellChained := by
  intro source s after
  have hs : s.Reachable := .start 0 _ _ _ _
  have hafter := scope_chains_wellFormed after.2 (.perform 40 (.eval source) hs)
  have hnested : (s.course 40 source).any (fun moment => moment.2.current == 2) = true := by
    decide +kernel
  obtain ⟨moment, hmoment, hcurrent⟩ := List.any_eq_true.1 hnested
  refine ⟨by decide +kernel, hafter.1, by decide +kernel, moment, hmoment, ?_, ?_⟩
  · exact beq_iff_eq.1 hcurrent
  · exact ((scope_chains_wellFormed s hs).2.2 40 source).1 moment hmoment

end Scriptlet
