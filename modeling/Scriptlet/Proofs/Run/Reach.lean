import Scriptlet.Proofs.Run.Chain
import Scriptlet.Proofs.Run.Coupling
import Scriptlet.Proofs.Run.Place

/-!
# `Scriptlet.Proofs.Run.Reach`: the scopes a program can get at

A program finds values on the chain of its scope. A function value among them leads to the chain
of the scope that the function remembers, and so on. `Scopes.Reaches` is all that can be got at
in this way.

What is not reached has no part in a run. The coupling behind this, `confinedCoupling`, lets a
program run on two stores that agree on a set of scopes. The set holds what is reached and all
scopes that are still to come. It is closed under going outwards and under following functions,
and every operation keeps it closed.

* `Machine.AgreeOn.coupled`: machines that agree on what is reached are coupled.
* `Outcome.Coupled.agreeOn`, `Outcome.Coupled.unreached`: coupled runs end in the same way,
  they leave alone what was not reached, and it is not reached afterwards either.
-/

set_option autoImplicit false

namespace Scriptlet

/-! ### Reachable scopes -/

/-- The scope that a value remembers, if it is a declared function. -/
def Value.closure? : Value → Option ScopeId
  | .callable f => f.closure?
  | _ => none

/-- The scopes that can be got at from the scope `start` on: those on its chain, and those on
the chain of a scope that is remembered by a function value in such a scope. -/
inductive Scopes.Reaches (s : Scopes) (start : ScopeId) : ScopeId → Prop where
  | chain {i : ScopeId} : s.OnChain start i → Reaches s start i
  | captured {i j closure : ScopeId} {scope : Scope} {b : Symbol × Value} :
      Reaches s start i → s.at? i = some scope → b ∈ scope.bindings →
      b.2.closure? = some closure → s.OnChain closure j → Reaches s start j

/-- The scopes that can be got at from the current scope on. -/
def Machine.Reaches (m : Machine) : ScopeId → Prop := m.scopes.Reaches m.current

/-- The scope around one that is reached is reached. -/
theorem Scopes.Reaches.outward {s : Scopes} {start i p : ScopeId} (h : s.Reaches start i)
    (hp : s.parent? i = some p) : s.Reaches start p := by
  cases h with
  | chain hchain => exact .chain (hchain.tail hp)
  | captured hi hscope hb hclosure hchain =>
      exact .captured hi hscope hb hclosure (hchain.tail hp)

/-- The scope that a function remembers is reached by everyone who can name the function. -/
theorem Machine.reaches_of_get? {m : Machine} {name : Symbol} {v : Value} {c : ScopeId}
    (hget : m.get? name = some v) (hc : v.closure? = some c) : m.Reaches c := by
  simp only [get?, Scopes.get?, Option.bind_eq_bind, Option.bind_eq_some_iff] at hget
  obtain ⟨owner, howner, scope, hscope, hfind⟩ := hget
  obtain ⟨b, hb, rfl⟩ := Option.map_eq_some_iff.1 hfind
  have howner : m.Reaches owner := .chain (Scopes.onChain_of_resolve howner)
  exact .captured howner hscope (List.mem_of_find?_eq_some hb) hc .refl

/-! ### Confined stores -/

/-- The same scope, and one of `R`. -/
def Same (R : ScopeId → Prop) (i i' : ScopeId) : Prop := i = i' ∧ R i

/-- Values that are coupled by `Same R` are equal, and remember a scope of `R`. -/
theorem Value.coupled_same {R : ScopeId → Prop} {v v' : Value} :
    v.Coupled (Same R) v' ↔ v = v' ∧ ∀ c, v.closure? = some c → R c := by
  constructor
  · intro h
    cases h with
    | plain hplain =>
        refine ⟨rfl, fun c hc => ?_⟩
        cases v with
        | callable f => exact absurd rfl (hplain f)
        | _ => cases hc
    | native => exact ⟨rfl, fun c hc => nomatch hc⟩
    | user hclosure =>
        obtain ⟨rfl, hR⟩ := hclosure
        exact ⟨rfl, fun c hc => Option.some.inj hc ▸ hR⟩
  · rintro ⟨rfl, hR⟩
    cases v with
    | callable f =>
        obtain ⟨identity, code⟩ := f
        cases code with
        | native => exact .native
        | user decl closure => exact .user ⟨rfl, hR closure rfl⟩
    | nil | bool | number | string => exact .plain fun _ hf => nomatch hf

/-- Two stores that agree on the scopes of `R`, and the first of which is as `s₀` elsewhere.
All scopes to come are in `R`, and there is no way out of `R`. -/
structure Scopes.Confined (R : ScopeId → Prop) (s₀ s s' : Scopes) : Prop where
  count_eq : s.count = s'.count
  fresh {i : ScopeId} : s.count ≤ i → R i
  inside {i : ScopeId} : R i → s.at? i = s'.at? i
  outside {i : ScopeId} : ¬ R i → s.at? i = s₀.at? i
  parent {i p : ScopeId} : R i → s.parent? i = some p → R p
  closure {i c : ScopeId} {scope : Scope} {b : Symbol × Value} : R i →
    s.at? i = some scope → b ∈ scope.bindings → b.2.closure? = some c → R c

namespace Scopes.Confined

variable {R : ScopeId → Prop} {s₀ s s' : Scopes} {i : ScopeId}

/-- The chain of a scope of `R` stays in `R`. -/
theorem chain (h : Confined R s₀ s s') (hi : R i) {j : ScopeId} (hchain : s.OnChain i j) :
    R j := by
  induction hchain with
  | refl => exact hi
  | tail _ hparent ih => exact h.parent ih hparent

/-- What is reached from a scope of `R` is in `R`. -/
theorem reaches (h : Confined R s₀ s s') (hi : R i) {j : ScopeId} (hreaches : s.Reaches i j) :
    R j := by
  induction hreaches with
  | chain hchain => exact h.chain hi hchain
  | captured _ hscope hb hclosure hchain ih =>
      exact h.chain (h.closure ih hscope hb hclosure) hchain

/-- A name is found in the same scope of both stores, since the search does not leave `R`. -/
theorem resolve_eq (h : Confined R s₀ s s') (name : Symbol) (hi : R i) :
    s.resolve name i = s'.resolve name i := by
  induction i using Nat.strongRecOn with
  | ind i ih =>
      rw [Scopes.resolve_eq, Scopes.resolve_eq, ← h.inside hi]
      cases hscope : s.at? i with
      | none => rfl
      | some scope =>
          dsimp only
          split
          · rfl
          · cases hparent : scope.parent with
            | none => rfl
            | some p =>
                dsimp only
                split
                · exact ih p ‹_› (h.parent hi ((parent?_of_at? hscope).trans hparent))
                · rfl

/-- The scope that is found is one of `R`. -/
theorem resolve (h : Confined R s₀ s s') (name : Symbol) (hi : R i) :
    (s.resolve name i).Rel (Same R) (s'.resolve name i) := by
  rw [← h.resolve_eq name hi]
  cases howner : s.resolve name i with
  | none => exact .none
  | some owner => exact .some ⟨rfl, h.chain hi (onChain_of_resolve howner)⟩

/-- What is found under a name is the same, and it leads to `R`. -/
theorem get (h : Confined R s₀ s s') (name : Symbol) (hi : R i) :
    (s.get? i name).Rel (Value.Coupled (Same R)) (s'.get? i name) := by
  unfold Scopes.get?
  rw [← h.resolve_eq name hi]
  cases howner : s.resolve name i with
  | none => exact .none
  | some owner =>
      have hR : R owner := h.chain hi (onChain_of_resolve howner)
      have hcell := h.inside hR
      simp only [Option.bind_eq_bind, Option.bind_some]
      change (s.at? owner >>= _).Rel _ (s'.at? owner >>= _)
      rw [← hcell]
      cases hscope : s.at? owner with
      | none => exact .none
      | some scope =>
          show (scope.find? name).Rel _ (scope.find? name)
          cases hfind : scope.find? name with
          | none => exact .none
          | some v =>
              -- A value in a scope of `R` remembers no scope outside, so what was found may be
              -- used.
              obtain ⟨b, hb, rfl⟩ := Option.map_eq_some_iff.1 hfind
              refine .some (Value.coupled_same.2 ⟨rfl, fun c hc => ?_⟩)
              exact h.closure hR hscope (List.mem_of_find?_eq_some hb) hc

/-- Both stores may change a scope of `R` alike, if what is put there leads to `R`. -/
theorem modify (h : Confined R s₀ s s') (hi : R i) {f : Scope → Scope}
    (hparent : ∀ scope, (f scope).parent = scope.parent)
    (hclosure : ∀ scope, ∀ b ∈ (f scope).bindings,
      b ∈ scope.bindings ∨ ∀ c, b.2.closure? = some c → R c) :
    Confined R s₀ ⟨s.cells.modify i f⟩ ⟨s'.cells.modify i f⟩ where
  count_eq := by
    have hcount := h.count_eq
    simpa [count] using hcount
  fresh := by
    intro j hj
    exact h.fresh (by simpa [count] using hj)
  inside := by
    intro j hj
    rw [at?_modify, at?_modify, h.inside hj]
  outside := by
    intro j hj
    have hne : j ≠ i := fun heq => hj (heq ▸ hi)
    rw [at?_modify, if_neg hne]
    exact h.outside hj
  parent := by
    intro j p hj hp
    have hlt := lt_count_of_parent? hp
    rw [(grows_modify hparent i).parent (by simpa [count] using hlt)] at hp
    exact h.parent hj hp
  closure := by
    intro j c scope b hj hscope hb hc
    rw [at?_modify] at hscope
    -- What the changed scope binds was there before, or leads to `R` by assumption.
    split at hscope
    · obtain ⟨old, hold, rfl⟩ := Option.map_eq_some_iff.1 hscope
      rcases hclosure old b hb with hb | hR
      · exact h.closure hj hold hb hc
      · exact hR c hc
    · exact h.closure hj hscope hb hc

/-- A scope that both open inside of one of `R` is the next one in both, and it belongs to `R`. -/
theorem openScope (h : Confined R s₀ s s') {parent : ScopeId} (hparent : R parent) :
    Confined R s₀ (s.openScope (some parent)).2 (s'.openScope (some parent)).2 where
  count_eq := by
    rw [count_openScope, count_openScope, h.count_eq]
  fresh := by
    intro j hj
    rw [count_openScope] at hj
    exact h.fresh (Nat.le_of_succ_le hj)
  inside := by
    intro j hj
    rw [at?_openScope, at?_openScope, h.inside hj, h.count_eq]
  outside := by
    intro j hj
    have hne : j ≠ s.count := fun heq => hj (h.fresh (Nat.le_of_eq heq.symm))
    rw [at?_openScope, if_neg hne]
    exact h.outside hj
  parent := by
    intro j p hj hp
    by_cases hnew : j = s.count
    · have hscope : (s.openScope (some parent)).2.at? j = some ⟨some parent, []⟩ := by
        rw [at?_openScope, if_pos hnew]
      rw [parent?_of_at? hscope] at hp
      cases hp
      exact hparent
    · have hold : (s.openScope (some parent)).2.parent? j = s.parent? j := by
        unfold parent?
        rw [at?_openScope, if_neg hnew]
      exact h.parent hj (hold ▸ hp)
  closure := by
    intro j c scope b hj hscope hb hc
    rw [at?_openScope] at hscope
    split at hscope
    · cases hscope
      cases hb
    · exact h.closure hj hscope hb hc

end Scopes.Confined

/-! ### The coupling -/

/-- Two runs that agree on the scopes of `R`. -/
def confinedCoupling (R : ScopeId → Prop) (s₀ : Scopes) : Coupling where
  World := Unit
  Le _ _ := True
  Scope _ := Same R
  Settled _ := Same R
  Stores _ := Scopes.Confined R s₀
  Journals := Eq

/-- All that is done to scopes stays in `R`: names are looked up along chains, and new values lead
there. -/
theorem confinedCoupling_lawful (R : ScopeId → Prop) (s₀ : Scopes) :
    (confinedCoupling R s₀).Lawful where
  refl _ := trivial
  trans _ _ := trivial
  scope _ h := h
  settled _ h := h
  of_settled h := h
  note := by
    rintro j j' record rfl
    rfl
  get := by
    rintro w s s' i i' name hs ⟨rfl, hi⟩
    exact Scopes.Confined.get hs name hi
  resolve := by
    rintro w s s' i i' name hs ⟨rfl, hi⟩
    exact Scopes.Confined.resolve hs name hi
  assign := by
    rintro w s s' i i' v v' name hs ⟨rfl, hi⟩ hv
    obtain ⟨rfl, hclosure⟩ := Value.coupled_same.1 hv
    refine Scopes.Confined.modify hs hi (fun _ => rfl) fun scope b hb => ?_
    rcases Scope.of_mem_assign hb with hvalue | hb
    · exact .inr (hvalue ▸ hclosure)
    · exact .inl hb
  define := by
    rintro w s s' i i' v v' name hs ⟨rfl, hi⟩ hv
    obtain ⟨rfl, hclosure⟩ := Value.coupled_same.1 hv
    refine Scopes.Confined.modify hs hi (fun scope => scope.parent_define name v) ?_
    intro scope b hb
    rcases Scope.of_mem_define hb with hvalue | hb
    · exact .inr (hvalue ▸ hclosure)
    · exact .inl hb
  openScope := by
    rintro w s s' parent parent' hs ⟨rfl, hparent⟩
    have hcount : Same R s.count s'.count :=
      ⟨Scopes.Confined.count_eq hs, Scopes.Confined.fresh hs (Nat.le_refl _)⟩
    exact ⟨(), trivial, hcount, Scopes.Confined.openScope hs hparent⟩

/-! ### Machines and outcomes -/

/-- Machines that differ only in what the scopes outside `R` hold. -/
structure Machine.AgreeOn (R : ScopeId → Prop) (m m' : Machine) : Prop where
  count_eq : m.scopes.count = m'.scopes.count
  at?_eq {i : ScopeId} : R i → m.scopes.at? i = m'.scopes.at? i
  eq_but_scopes : m' = { m with scopes := m'.scopes }

/-- Outcomes with the same result or the same error, and with machines that differ only in what
the scopes outside `R` hold. -/
inductive Outcome.AgreeOn {α : Type} (R : ScopeId → Prop) : Outcome α → Outcome α → Prop where
  | done {v : α} {m m' : Machine} : m.AgreeOn R m' → AgreeOn R (.done v m) (.done v m')
  | failed {e : RuntimeError} {m m' : Machine} : m.AgreeOn R m' →
      AgreeOn R (.failed e m) (.failed e m')
  | starved : AgreeOn R .starved .starved

/-- The scopes that are reached in the machine, and those that are still to come. -/
def Machine.Attainable (m : Machine) (i : ScopeId) : Prop := m.Reaches i ∨ m.scopes.count ≤ i

/-- Machines that agree on what is reached are coupled. -/
theorem Machine.AgreeOn.coupled {m m' : Machine} (h : m.AgreeOn m.Reaches m') :
    m.Coupled (confinedCoupling m.Attainable m.scopes) () m.current m.current m' := by
  have hat : ∀ {i scope}, m.Attainable i → m.scopes.at? i = some scope → m.Reaches i := by
    intro i scope hi hscope
    exact hi.resolve_right (Nat.not_le_of_lt (Scopes.lt_count_of_at? hscope))
  refine ⟨⟨rfl, .inl (.chain .refl)⟩, rfl, m'.scopes, m.journal, ?_, rfl, h.eq_but_scopes⟩
  -- The other scopes of `Attainable` are still to come, so there is nothing to say of them now.
  constructor
  · exact h.count_eq
  · intro i hi
    exact .inr hi
  · rintro i (hi | hi)
    · exact h.at?_eq hi
    · rw [Scopes.at?_eq_none hi, Scopes.at?_eq_none (h.count_eq ▸ hi)]
  · intro i _
    rfl
  · intro i p hi hp
    obtain ⟨scope, hscope, -⟩ := Option.bind_eq_some_iff.1 hp
    exact .inl ((hat hi hscope).outward hp)
  · intro i c scope b hi hscope hb hc
    exact .inl (.captured (hat hi hscope) hscope hb hc .refl)

namespace Outcome.Coupled

variable {α : Type} {R : ScopeId → Prop} {s₀ : Scopes} {i i' : ScopeId}
  {A : Unit → α → α → Prop} {x x' : Outcome α}

/-- Coupled runs end in the same way and in machines that agree. -/
theorem agreeOn (hA : ∀ v v', A () v v' → v = v')
    (h : x.Coupled (confinedCoupling R s₀) () i i' A x') : x.AgreeOn R x' := by
  have hmachine {m m' : Machine}
      (hm : m.Coupled (confinedCoupling R s₀) () i i' m') : m.AgreeOn R m' := by
    obtain ⟨⟨rfl, -⟩, rfl, scopes, journal, hstores, rfl, rfl⟩ := hm
    exact ⟨Scopes.Confined.count_eq hstores, Scopes.Confined.inside hstores, rfl⟩
  cases h with
  | done _ hv hm =>
      cases hA _ _ hv
      exact .done (hmachine hm)
  | failed _ hm => exact .failed (hmachine hm)
  | starved => exact .starved

/-- The first of two coupled runs leaves alone what is outside `R`, and it does not reach it. -/
theorem unreached (h : x.Coupled (confinedCoupling R s₀) () i i' A x') {m : Machine}
    (hm : m ∈ x.machine?) {j : ScopeId} (hj : ¬ R j) :
    m.scopes.at? j = s₀.at? j ∧ ¬ m.Reaches j := by
  have hmachine {m m' : Machine} (hm : m.Coupled (confinedCoupling R s₀) () i i' m') :
      m.scopes.at? j = s₀.at? j ∧ ¬ m.Reaches j := by
    have hcurrent : R m.current := hm.current_eq ▸ hm.scope.2
    exact ⟨Scopes.Confined.outside hm.stores hj,
      fun hreaches => hj (Scopes.Confined.reaches hm.stores hcurrent hreaches)⟩
  cases h with
  | done _ _ hcoupled =>
      cases hm
      exact hmachine hcoupled
  | failed _ hcoupled =>
      cases hm
      exact hmachine hcoupled
  | starved => cases hm

end Outcome.Coupled

end Scriptlet
