import Scriptlet.Proofs.Run.Reach
import Scriptlet.Proofs.Run.Trace
import Scriptlet.Proofs.Session.Sound
import Scriptlet.Run.SplitMix

/-!
# `Scriptlet.Proofs.Run.Isolation`: closures do not disturb each other

What a run can see and change, put together from two sides. What is not reached from the current
scope is neither read nor written (`Scriptlet.Proofs.Run.Reach`). And what is reached is written
only from its own chain: by code in a scope inside it, or by a function that was made there
(`Scriptlet.Proofs.Run.Trace`).

* `Machine.Isolated`: what a run leaves as it is.
* `sibling_unchanged`: a function that keeps to its own chain leaves alone the scopes beside the
  one that it remembers.
* `closures_isolated`: the whole statement, for expressions, statements and calls.
-/

set_option autoImplicit false

namespace Scriptlet

/-- What a run that made these calls leaves as it is. -/
structure Machine.Isolated (calls : List Callable) (m m₁ : Machine) : Prop where
  /-- What was not reached is not changed, and it is not reached afterwards either. -/
  unreached {i : ScopeId} : i < m.scopes.count → ¬ m.Reaches i →
    m₁.scopes.at? i = m.scopes.at? i ∧ ¬ m₁.Reaches i
  /-- What was changed is on the chain of the current scope, or on the chain of a scope that is
  remembered by a function that was called. -/
  changed {i : ScopeId} : i < m.scopes.count → m₁.scopes.at? i ≠ m.scopes.at? i →
    m.scopes.OnChain m.current i ∨ ∃ f ∈ calls, ∃ c ∈ f.closure?, m₁.scopes.OnChain c i
  /-- The calls are those that were noted down. -/
  noted : m₁.callings = m.callings ++ calls.map fun f => (f.text, f.arity)

/-- A machine agrees with itself. -/
theorem Machine.AgreeOn.refl (R : ScopeId → Prop) (m : Machine) : m.AgreeOn R m :=
  ⟨rfl, fun _ => rfl, rfl⟩

/-- A run that is coupled with itself and traced is isolated. -/
theorem Machine.WellFormed.isolated {α : Type} {m : Machine} (hm : m.WellFormed)
    {calls : List Callable} {A : Unit → α → α → Prop} {x : Outcome α}
    (hcoupled : x.Coupled (confinedCoupling m.Attainable m.scopes) () m.current m.current A x)
    (htraced : x.Traced (some m.current) calls m) :
    ∀ m₁ ∈ x.machine?, m.Isolated calls m₁ := by
  intro m₁ hm₁
  have hrun := htraced m₁ hm₁
  constructor
  -- What is not reached is outside of what the coupling is about, and stays as it was.
  · intro i hi hunreached
    refine hcoupled.unreached hm₁ ?_
    rintro (hreached | hnew)
    · exact hunreached hreached
    · exact Nat.not_le_of_lt hi hnew
  · intro i hi hne
    refine (hrun.changed hi hne).imp_left ?_
    rintro ⟨c, hc, hchain⟩
    cases hc
    exact hrun.grows.onChain_back hm.nested hm.current hchain
  · exact hrun.noted

/-- Beside the scope `c₁` that a function remembers there is another one, `c₂`, in the same
scope. The function leaves it alone if all functions that it calls remember scopes inside `c₁` or
around it. -/
theorem sibling_unchanged {m : Machine} (hm : m.WellFormed) {n : Nat} {f : Callable}
    {paren : Token} {args : List Value} {c₁ c₂ p : ScopeId} (hf : f.closure? = some c₁)
    (hne : c₁ ≠ c₂) (hp₁ : m.scopes.parent? c₁ = some p) (hp₂ : m.scopes.parent? c₂ = some p)
    {m₁ : Machine} (hm₁ : m₁ ∈ (invoke n f paren args m).machine?)
    (hcalls : ∀ g ∈ invokeCalls n f args m, ∀ c ∈ g.closure?,
      m₁.scopes.OnChain c c₁ ∨ m₁.scopes.OnChain c₁ c) :
    m₁.scopes.at? c₂ = m.scopes.at? c₂ := by
  have hrun := invoke_traced n f paren args m m₁ hm₁
  have hlt₁ := Scopes.lt_count_of_parent? hp₁
  have hlt₂ := Scopes.lt_count_of_parent? hp₂
  -- The two scopes are on different chains, before the call and after it.
  have hapart₁ : ¬ m₁.scopes.OnChain c₁ c₂ := fun hchain =>
    hm.nested.not_onChain_sibling hp₁ hp₂ hne (hrun.grows.onChain_back hm.nested hlt₁ hchain)
  have hapart₂ : ¬ m₁.scopes.OnChain c₂ c₁ := fun hchain =>
    hm.nested.not_onChain_sibling hp₂ hp₁ hne.symm
      (hrun.grows.onChain_back hm.nested hlt₂ hchain)
  by_contra hchanged
  rcases hrun.changed hlt₂ hchanged with ⟨c, hc, hchain⟩ | ⟨g, hg, c, hc, hchain⟩
  · rw [hf] at hc
    cases hc
    exact hapart₁ hchain
  · rcases hcalls g hg c hc with hinside | haround
    · exact (Scopes.onChain_total hinside hchain).elim hapart₁ hapart₂
    · exact hapart₁ (haround.trans hchain)

/-- **Closures are isolated.** Take a machine whose scopes are in order.

An expression or a statement leaves alone what is not reached, and changes what is reached only
if it is on the chain of the current scope or of a scope that a called function remembers. On
two machines that differ only in scopes that are not reached, it ends in the same way, with the
same output, and in machines that agree on all that was reached and on all that is new. And of
two scopes inside the same one, a function that remembers the one leaves alone the other, unless
it calls a function that was made elsewhere. -/
theorem closures_isolated {m : Machine} (hm : m.WellFormed) (n : Nat) :
    (∀ e, ∀ m₁ ∈ (eval n e m).machine?, m.Isolated (evalCalls n e m) m₁) ∧
    (∀ s, ∀ m₁ ∈ (exec n s m).machine?, m.Isolated (execCalls n s m) m₁) ∧
    (∀ m', m.AgreeOn m.Reaches m' →
      (∀ e, (eval n e m).AgreeOn m.Attainable (eval n e m')) ∧
      ∀ s, (exec n s m).AgreeOn m.Attainable (exec n s m')) ∧
    ∀ f paren args c₁ c₂ p, f.closure? = some c₁ → c₁ ≠ c₂ →
      m.scopes.parent? c₁ = some p → m.scopes.parent? c₂ = some p →
      ∀ m₁ ∈ (invoke n f paren args m).machine?,
        (∀ g ∈ invokeCalls n f args m, ∀ c ∈ g.closure?,
          m₁.scopes.OnChain c c₁ ∨ m₁.scopes.OnChain c₁ c) →
        m₁.scopes.at? c₂ = m.scopes.at? c₂ := by
  have hlaw := confinedCoupling_lawful m.Attainable m.scopes
  have hsettled : (confinedCoupling m.Attainable m.scopes).Settled () m.current m.current :=
    ⟨rfl, .inl (.chain .refl)⟩
  refine ⟨fun e => ?_, fun s => ?_, fun m' hm' => ⟨fun e => ?_, fun s => ?_⟩, ?_⟩
  -- Every machine agrees with itself, so the coupling of two runs says something of one.
  · have hself := Machine.AgreeOn.coupled (Machine.AgreeOn.refl _ m)
    exact hm.isolated (Coupling.eval_coupled hlaw n hself) (eval_traced n e m)
  · have hself := Machine.AgreeOn.coupled (Machine.AgreeOn.refl _ m)
    exact hm.isolated (Coupling.exec_coupled hlaw n (.inr hsettled) hself) (exec_traced n s m)
  · refine (Coupling.eval_coupled hlaw n hm'.coupled).agreeOn ?_
    exact fun v v' hv => (Value.coupled_same.1 hv).1
  · refine (Coupling.exec_coupled hlaw n (.inr hsettled) hm'.coupled).agreeOn ?_
    intro flow flow' hflow
    cases hflow with
    | normal => rfl
    | returned hv => rw [(Value.coupled_same.1 hv).1]
  -- Both scopes are right inside of `p`, so none is on the chain of the other.
  · intro f paren args c₁ c₂ p hf hne hp₁ hp₂ m₁ hm₁ hcalls
    exact sibling_unchanged hm hf hne hp₁ hp₂ hm₁ hcalls

/-- A new session that has made two counters, by two calls of one function. -/
def twoCounters : Session :=
  let s := (Session.start (.new 0) (.ofBytes [] none) (.empty none) (.splitMix 0)
    (.steady (.ok 0))).emptied
  (s.perform 40 (.eval
    ("fun make() \x7b var i = 0; fun count() \x7b i = i + 1; return i; \x7d return count; \x7d " ++
      "var a = make(); var b = make();"))).2

/-- Where the counters `a` and `b` come from, and what a call of `a` does: it counts, in the
scope it comes from, and calls nothing. -/
def Session.countsOnce (s : Session) : Bool :=
  match s.machine.get? (s.lexicon.intern "a").1, s.machine.get? (s.lexicon.intern "b").1 with
  | some (.callable f), some (.callable g) =>
    f.closure? == some 1 && g.closure? == some 2 && s.machine.scopes.parent? 1 == some 0 &&
      s.machine.scopes.parent? 2 == some 0 && (invokeCalls 40 f [] s.machine).isEmpty &&
      (s.machine.scopes.get? 1 (s.lexicon.intern "i").1).map Value.text == some "0" &&
      match (invoke 40 f ⟨.mark .rightParen, default, none, 1⟩ [] s.machine).machine? with
      | some m₁ => (m₁.scopes.get? 1 (s.lexicon.intern "i").1).map Value.text == some "1"
      | none => false
  | _, _ => false

/-- Both counters can be reached, and a call of the one counts, but it leaves alone the scope
that the other counts in. -/
theorem closures_isolated_counters :
    ∃ f g m₁,
      twoCounters.machine.get? (twoCounters.lexicon.intern "a").1 = some (.callable f) ∧
      twoCounters.machine.get? (twoCounters.lexicon.intern "b").1 = some (.callable g) ∧
      f.closure? = some 1 ∧ g.closure? = some 2 ∧
      twoCounters.machine.Reaches 1 ∧ twoCounters.machine.Reaches 2 ∧
      (invoke 40 f ⟨.mark .rightParen, default, none, 1⟩ [] twoCounters.machine).machine?
        = some m₁ ∧
      (twoCounters.machine.scopes.get? 1 (twoCounters.lexicon.intern "i").1).map Value.text
        = some "0" ∧
      (m₁.scopes.get? 1 (twoCounters.lexicon.intern "i").1).map Value.text = some "1" ∧
      m₁.scopes.at? 2 = twoCounters.machine.scopes.at? 2 := by
  have hs : twoCounters.Reachable := .perform 40 _ (.start 0 _ _ _ _)
  have hrun : twoCounters.countsOnce = true := by decide +kernel
  generalize twoCounters = s at hs hrun
  unfold Session.countsOnce at hrun
  split at hrun
  -- The closures and the scopes are found by evaluation, and the rest follows from the theorem.
  case h_1 f g hf hg =>
    simp only [Bool.and_eq_true, beq_iff_eq, List.isEmpty_iff] at hrun
    obtain ⟨⟨⟨⟨⟨⟨hf₁, hg₂⟩, hp₁⟩, hp₂⟩, hcalls⟩, hzero⟩, hdone⟩ := hrun
    split at hdone
    case h_1 m₁ hm₁ =>
      simp only [beq_iff_eq] at hdone
      have hisolated := (closures_isolated hs.wellFormed 40).2.2.2 f _ [] 1 2 0 hf₁ (by decide)
        hp₁ hp₂ m₁ hm₁ (by simp [hcalls])
      exact ⟨f, g, m₁, hf, hg, hf₁, hg₂, Machine.reaches_of_get? hf hf₁,
        Machine.reaches_of_get? hg hg₂, hm₁, hzero, hdone, hisolated⟩
    case h_2 => cases hdone
  case h_2 => cases hrun

end Scriptlet
