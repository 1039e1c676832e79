import Mathlib.Logic.Relation
import Scriptlet.Proofs.Run.Scopes
import Scriptlet.Proofs.Run.Upkeep

/-!
# `Scriptlet.Proofs.Run.Chain`: a scope and the scopes around it

From a scope, names are looked up on its chain: in the scope itself, in the scope around it, and
so on outwards (`Scopes.OnChain`). Chains lead to older scopes (`Nested.le_of_onChain`), and two
scopes on one chain are on each other's chains (`onChain_total`).

A store only grows: scopes are opened, and no scope is ever moved to another place
(`Scopes.Grows`). So the chains of old scopes are the same at all times (`Grows.onChain`,
`Grows.onChain_back`). The way into the scope of a block or a call adds that scope and leaves the
old ones as they are (`Machine.grows_inside`, `Machine.at?_inside`).
-/

set_option autoImplicit false

namespace Scriptlet

/-- The scope that a declared function remembers. -/
def Callable.closure? (f : Callable) : Option ScopeId :=
  match f.code with
  | .native _ _ _ => none
  | .user _ closure => some closure

namespace Scope

/-- What a scope binds after a declaration is the new value, or was bound before. -/
theorem of_mem_define {scope : Scope} {name : Symbol} {v : Value} {b : Symbol × Value}
    (h : b ∈ (scope.define name v).bindings) : b.2 = v ∨ b ∈ scope.bindings := by
  unfold define at h
  split at h
  · obtain ⟨old, hold, -, hvalue | rfl⟩ := of_mem_rebind h
    · exact .inl hvalue
    · exact .inr hold
  · rcases List.mem_append.1 h with h | h
    · exact .inr h
    · cases List.mem_singleton.1 h
      exact .inl rfl

/-- The same for an assignment. -/
theorem of_mem_assign {scope : Scope} {name : Symbol} {v : Value} {b : Symbol × Value}
    (h : b ∈ (scope.assign name v).bindings) : b.2 = v ∨ b ∈ scope.bindings := by
  obtain ⟨old, hold, -, hvalue | rfl⟩ := of_mem_rebind h
  · exact .inl hvalue
  · exact .inr hold

end Scope

namespace Scopes

variable {s s' s₁ : Scopes} {i j p : ScopeId}

/-! ### Chains -/

/-- The scope right around the scope `i`. -/
def parent? (s : Scopes) (i : ScopeId) : Option ScopeId := (s.at? i).bind Scope.parent

/-- The scope `j` is on the chain of `i`: it is `i` itself or one of the scopes around it. -/
def OnChain (s : Scopes) : ScopeId → ScopeId → Prop :=
  Relation.ReflTransGen fun i p => s.parent? i = some p

/-- A scope that is found is one of those that there are. -/
theorem lt_count_of_at? {scope : Scope} (h : s.at? i = some scope) : i < s.count :=
  (Array.getElem?_eq_some_iff.1 h).1

/-- There is no scope behind the last one. -/
theorem at?_eq_none (h : s.count ≤ i) : s.at? i = none := Array.getElem?_eq_none h

/-- The parent of a scope is told by the scope. -/
theorem parent?_of_at? {scope : Scope} (h : s.at? i = some scope) :
    s.parent? i = scope.parent := by
  unfold parent?
  rw [h]
  rfl

/-- Only a scope that exists has a parent. -/
theorem lt_count_of_parent? (h : s.parent? i = some p) : i < s.count := by
  obtain ⟨scope, hscope, -⟩ := Option.bind_eq_some_iff.1 h
  exact lt_count_of_at? hscope

/-- In a nested store, the parent is older. -/
theorem Nested.parent_lt (hs : s.Nested) (h : s.parent? i = some p) : p < i := by
  obtain ⟨scope, hscope, hparent⟩ := Option.bind_eq_some_iff.1 h
  exact hs i scope hscope p hparent

/-- Chains lead to older scopes. -/
theorem Nested.le_of_onChain (hs : s.Nested) (h : s.OnChain i j) : j ≤ i := by
  induction h with
  | refl => exact Nat.le_refl i
  | tail _ hparent ih => exact Nat.le_trans (Nat.le_of_lt (hs.parent_lt hparent)) ih

/-- Of two scopes on one chain, one is on the chain of the other. -/
theorem onChain_total {c : ScopeId} (hi : s.OnChain c i) (hj : s.OnChain c j) :
    s.OnChain i j ∨ s.OnChain j i :=
  Relation.ReflTransGen.total_of_right_unique
    (fun _ _ _ h h' => Option.some.inj (h.symm.trans h')) hi hj

/-- Two scopes inside the same scope are not on each other's chains. -/
theorem Nested.not_onChain_sibling (hs : s.Nested) (hi : s.parent? i = some p)
    (hj : s.parent? j = some p) (hne : i ≠ j) : ¬ s.OnChain i j := by
  intro h
  rcases Relation.ReflTransGen.cases_head h with heq | ⟨q, hq, hchain⟩
  · exact hne heq
  · -- The chain goes on from the parent, where everything is older than `j`.
    cases Option.some.inj (hi.symm.trans hq)
    exact Nat.not_le_of_lt (hs.parent_lt hj) (hs.le_of_onChain hchain)

/-- Names are found on the chain. -/
theorem onChain_of_resolve {name : Symbol} {owner : ScopeId}
    (h : s.resolve name i = some owner) : s.OnChain i owner := by
  induction i using Nat.strongRecOn with
  | ind i ih =>
      -- The search takes one link of the chain, or it ends here.
      rw [resolve_eq] at h
      cases hscope : s.at? i with
      | none =>
          rw [hscope] at h
          cases h
      | some scope =>
          simp only [hscope] at h
          split at h
          · cases h
            exact .refl
          · cases hparent : scope.parent with
            | none =>
                rw [hparent] at h
                cases h
            | some p =>
                simp only [hparent] at h
                split at h
                · exact .head ((parent?_of_at? hscope).trans hparent) (ih p ‹_› h)
                · cases h

/-! ### Stores that grow -/

/-- No scope goes away, and none gets another parent. -/
structure Grows (s s' : Scopes) : Prop where
  count : s.count ≤ s'.count
  parent {i : ScopeId} : i < s.count → s'.parent? i = s.parent? i

/-- A store has grown from itself by nothing. -/
theorem Grows.refl (s : Scopes) : s.Grows s := ⟨Nat.le_refl _, fun _ => rfl⟩

/-- Growing goes on. -/
theorem Grows.trans (h : s.Grows s') (h' : s'.Grows s₁) : s.Grows s₁ where
  count := Nat.le_trans h.count h'.count
  parent hi := (h'.parent (Nat.lt_of_lt_of_le hi h.count)).trans (h.parent hi)

/-- Changing a scope without its parent is growing: none is added, and the parents are the same. -/
theorem grows_modify {f : Scope → Scope} (hf : ∀ scope, (f scope).parent = scope.parent)
    (id : ScopeId) : s.Grows ⟨s.cells.modify id f⟩ where
  count := by simp [count]
  parent := by
    intro i _
    unfold parent?
    rw [at?_modify]
    split
    · cases s.at? i with
      | none => rfl
      | some scope => exact hf scope
    · rfl

/-- A definition moves no scope. -/
theorem grows_define (id : ScopeId) (name : Symbol) (v : Value) :
    s.Grows (s.define id name v) :=
  grows_modify (fun scope => scope.parent_define name v) id

/-- Nor do the definitions for a call. -/
theorem grows_defineAll (id : ScopeId) (params : List Token) (args : List Value) :
    s.Grows (s.defineAll id params args) :=
  defineAll_induction (motive := s.Grows) id (.refl s)
    fun _ _ _ _ _ h => h.trans (grows_define _ _ _)

/-- Parameters are bound in one scope only. -/
theorem at?_defineAll_of_ne {id : ScopeId} (hne : i ≠ id) (params : List Token)
    (args : List Value) : (s.defineAll id params args).at? i = s.at? i := by
  refine defineAll_induction (motive := fun s₁ => s₁.at? i = s.at? i) id rfl ?_
  intro s₁ param _ arg _ h
  unfold define
  rw [at?_modify, if_neg hne, h]

/-- Opening a scope adds one and moves none. -/
theorem grows_openScope (parent : Option ScopeId) : s.Grows (s.openScope parent).2 where
  count := by simp
  parent := by
    intro i hi
    unfold parent?
    rw [at?_openScope, if_neg (Nat.ne_of_lt hi)]

/-- What is on a chain stays on it, since each link of the chain stays. -/
theorem Grows.onChain (h : s.Grows s') (hchain : s.OnChain i j) : s'.OnChain i j :=
  Relation.ReflTransGen.mono (r := fun i p => s.parent? i = some p)
    (p := fun i p => s'.parent? i = some p)
    (fun _ _ hparent => (h.parent (lt_count_of_parent? hparent)).trans hparent) i j hchain

/-- A scope that is there already has the chain it had. -/
theorem Grows.onChain_back (h : s.Grows s') (hs : s.Nested) (hi : i < s.count)
    (hchain : s'.OnChain i j) : s.OnChain i j := by
  suffices s.OnChain i j ∧ j < s.count from this.1
  induction hchain with
  | refl => exact ⟨.refl, hi⟩
  | tail _ hparent ih =>
      rw [h.parent ih.2] at hparent
      exact ⟨ih.1.tail hparent, Nat.lt_trans (hs.parent_lt hparent) ih.2⟩

end Scopes

/-! ### The way into a new scope -/

namespace Machine

/-- A scope for a body is opened, and parameters are bound in it. Both let the store grow. -/
theorem grows_inside (m : Machine) (parent : ScopeId) (params : List Token)
    (args : List Value) : m.scopes.Grows (m.inside parent params args).scopes :=
  (Scopes.grows_openScope (some parent)).trans (Scopes.grows_defineAll _ _ _)

/-- Parameters are bound in the new scope, and the old ones stay as they are. -/
theorem at?_inside {m : Machine} {i : ScopeId} (hi : i < m.scopes.count) (parent : ScopeId)
    (params : List Token) (args : List Value) :
    (m.inside parent params args).scopes.at? i = m.scopes.at? i := by
  have hnew : i ≠ m.scopes.count := Nat.ne_of_lt hi
  refine (Scopes.at?_defineAll_of_ne hnew _ _).trans ?_
  show (m.scopes.openScope (some parent)).2.at? i = m.scopes.at? i
  rw [Scopes.at?_openScope, if_neg hnew]

end Machine

end Scriptlet
