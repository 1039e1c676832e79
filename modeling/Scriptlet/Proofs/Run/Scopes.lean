import Scriptlet.Run.Scopes

/-!
# `Scriptlet.Proofs.Run.Scopes`: what the store of scopes keeps

Two facts about a store are kept by every operation on it:

* `Scopes.Nested`: the parent of a scope is older than the scope;
* `Scopes.Holds K V`: every name that is bound anywhere is as `K` says, and every value as
  `V` says.

`Nearest` is the search for a name without any recursion in it: the nearest scope, from a
given one outwards, that binds the name. In a nested store `Scopes.resolve` finds it, and
nothing if there is none (`resolve_eq_some`, `resolve_eq_none`).
-/

set_option autoImplicit false

namespace Scriptlet

namespace Scopes

/-- The number of scopes. -/
def count (s : Scopes) : Nat := s.cells.size

/-- The scope with this number. -/
def at? (s : Scopes) (id : ScopeId) : Option Scope := s.cells[id]?

/-- Parents are older than the scopes in them. -/
def Nested (s : Scopes) : Prop :=
  ∀ id scope, s.at? id = some scope → ∀ parent ∈ scope.parent, parent < id

/-- All names that are bound are as `K` says, and all values as `V` says. -/
def Holds (K : Symbol → Prop) (V : Value → Prop) (s : Scopes) : Prop :=
  ∀ id scope, s.at? id = some scope → ∀ binding ∈ scope.bindings, K binding.1 ∧ V binding.2

variable {K : Symbol → Prop} {V : Value → Prop}

/-- What holds of all values may be said in a weaker way. -/
theorem Holds.imp {V' : Value → Prop} {s : Scopes} (h : s.Holds K V)
    (hV : ∀ v, V v → V' v) : s.Holds K V' := by
  intro id scope hscope binding hbinding
  obtain ⟨hname, hvalue⟩ := h id scope hscope binding hbinding
  exact ⟨hname, hV _ hvalue⟩

/-- A store without scopes is nested. -/
theorem nested_empty : empty.Nested := fun _ _ hscope => nomatch hscope

/-- There is nothing in it that could be wrong. -/
theorem holds_empty : empty.Holds K V := fun _ _ hscope => nomatch hscope

/-! ### Opening a scope -/

/-- One scope is added. -/
@[simp] theorem count_openScope (s : Scopes) (parent : Option ScopeId) :
    (s.openScope parent).2.count = s.count + 1 := by
  simp [openScope, count]

/-- The new scope has the next number and binds nothing. The others are as they were. -/
theorem at?_openScope (s : Scopes) (parent : Option ScopeId) (id : ScopeId) :
    (s.openScope parent).2.at? id = if id = s.count then some ⟨parent, []⟩ else s.at? id := by
  simp only [openScope, at?, count, Array.getElem?_push]
  rfl

/-- Opening a scope inside of one that is there keeps parents older. -/
theorem Nested.openScope {s : Scopes} (h : s.Nested) {parent : Option ScopeId}
    (hparent : ∀ p ∈ parent, p < s.count) : (s.openScope parent).2.Nested := by
  intro id scope hscope p hp
  rw [at?_openScope] at hscope
  split at hscope
  case isTrue hid =>
    cases hscope
    rw [hid]
    exact hparent p hp
  case isFalse => exact h id scope hscope p hp

/-- A new scope binds nothing, so all that is bound is as it was. -/
theorem Holds.openScope {s : Scopes} (h : s.Holds K V) (parent : Option ScopeId) :
    (s.openScope parent).2.Holds K V := by
  intro id scope hscope binding hbinding
  rw [at?_openScope] at hscope
  split at hscope
  · cases hscope
    cases hbinding
  · exact h id scope hscope binding hbinding

/-! ### Changing a scope -/

/-- A change to one scope is seen there only. -/
theorem at?_modify (s : Scopes) (id i : ScopeId) (f : Scope → Scope) :
    (Scopes.mk (s.cells.modify id f)).at? i = if i = id then (s.at? i).map f else s.at? i := by
  simp only [at?, Array.getElem?_modify, eq_comm]

/-- A change to a scope that keeps its parent keeps the nesting. -/
theorem Nested.modify {s : Scopes} (h : s.Nested) (id : ScopeId) {f : Scope → Scope}
    (hf : ∀ scope, (f scope).parent = scope.parent) :
    (Scopes.mk (s.cells.modify id f)).Nested := by
  intro i scope hscope p hp
  rw [at?_modify] at hscope
  split at hscope
  · obtain ⟨old, hold, rfl⟩ := Option.map_eq_some_iff.1 hscope
    rw [hf] at hp
    exact h i old hold p hp
  · exact h i scope hscope p hp

/-- A change to a scope whose new bindings are in order keeps the store in order. -/
theorem Holds.modify {s : Scopes} (h : s.Holds K V) (id : ScopeId) {f : Scope → Scope}
    (hf : ∀ scope, (∀ b ∈ scope.bindings, K b.1 ∧ V b.2) →
      ∀ b ∈ (f scope).bindings, K b.1 ∧ V b.2) :
    (Scopes.mk (s.cells.modify id f)).Holds K V := by
  intro i scope hscope binding hbinding
  rw [at?_modify] at hscope
  split at hscope
  · obtain ⟨old, hold, rfl⟩ := Option.map_eq_some_iff.1 hscope
    exact hf old (h i old hold) binding hbinding
  · exact h i scope hscope binding hbinding

end Scopes

/-- Names keep their place when they get new values. -/
theorem Scope.of_mem_rebind {name : Symbol} {value : Value} {bindings : List (Symbol × Value)}
    {binding : Symbol × Value} (h : binding ∈ rebind name value bindings) :
    ∃ old ∈ bindings, binding.1 = old.1 ∧ (binding.2 = value ∨ binding = old) := by
  obtain ⟨old, hold, rfl⟩ := List.mem_map.1 h
  refine ⟨old, hold, ?_⟩
  split
  · exact ⟨rfl, .inl rfl⟩
  · exact ⟨rfl, .inr rfl⟩

/-- A definition leaves the parent of the scope. -/
theorem Scope.parent_define (scope : Scope) (name : Symbol) (value : Value) :
    (scope.define name value).parent = scope.parent := by
  unfold define
  split <;> rfl

namespace Scopes

variable {K : Symbol → Prop} {V : Value → Prop}

/-- A binding that gets a new value keeps its name. -/
theorem holds_rebind {name : Symbol} {value : Value} (hvalue : V value)
    {bindings : List (Symbol × Value)} (h : ∀ b ∈ bindings, K b.1 ∧ V b.2) :
    ∀ b ∈ Scope.rebind name value bindings, K b.1 ∧ V b.2 := by
  intro b hb
  obtain ⟨old, hold, hname, hnew | rfl⟩ := Scope.of_mem_rebind hb
  · rw [hname, hnew]
    exact ⟨(h old hold).1, hvalue⟩
  · exact h b hold

/-- Definitions open no scopes. -/
@[simp] theorem count_define (s : Scopes) (id : ScopeId) (name : Symbol) (value : Value) :
    (s.define id name value).count = s.count := by
  simp [define, count]

/-- Assignments open none either. -/
@[simp] theorem count_assignAt (s : Scopes) (id : ScopeId) (name : Symbol) (value : Value) :
    (s.assignAt id name value).count = s.count := by
  simp [assignAt, count]

/-- Definitions keep parents older. -/
theorem Nested.define {s : Scopes} (h : s.Nested) (id : ScopeId) (name : Symbol)
    (value : Value) : (s.define id name value).Nested :=
  h.modify id fun scope => scope.parent_define name value

/-- So do assignments. -/
theorem Nested.assignAt {s : Scopes} (h : s.Nested) (id : ScopeId) (name : Symbol)
    (value : Value) : (s.assignAt id name value).Nested :=
  h.modify id fun _ => rfl

/-- A definition of a good name with a good value keeps all that is bound good. -/
theorem Holds.define {s : Scopes} (h : s.Holds K V) (id : ScopeId) {name : Symbol}
    {value : Value} (hname : K name) (hvalue : V value) :
    (s.define id name value).Holds K V := by
  refine h.modify id fun scope hscope => ?_
  unfold Scope.define
  split
  · exact holds_rebind hvalue hscope
  · intro b hb
    rcases List.mem_append.1 hb with hb | hb
    · exact hscope b hb
    · cases List.mem_singleton.1 hb
      exact ⟨hname, hvalue⟩

/-- For an assignment only the value has to be good, since the name was bound before. -/
theorem Holds.assignAt {s : Scopes} (h : s.Holds K V) (id : ScopeId) (name : Symbol)
    {value : Value} (hvalue : V value) : (s.assignAt id name value).Holds K V :=
  h.modify id fun _ hscope => holds_rebind hvalue hscope

/-- What a step of binding parameters keeps, binding all of them keeps. -/
theorem defineAll_induction {motive : Scopes → Prop} {params : List Token}
    {args : List Value} {s : Scopes} (id : ScopeId) (h : motive s)
    (hstep : ∀ s, ∀ param ∈ params, ∀ arg ∈ args, motive s →
      motive (s.define id param.lexeme arg)) : motive (s.defineAll id params args) := by
  unfold defineAll
  have hpairs : ∀ pair ∈ params.zip args, pair.1 ∈ params ∧ pair.2 ∈ args :=
    fun pair hpair => List.of_mem_zip hpair
  -- On the pairs. What is kept of them is where their two parts come from.
  generalize params.zip args = pairs at hpairs
  induction pairs generalizing s with
  | nil => exact h
  | cons pair pairs ih =>
      obtain ⟨hparam, harg⟩ := hpairs pair (by simp)
      exact ih (hstep s _ hparam _ harg h) fun p hp => hpairs p (by simp [hp])

/-- Binding parameters opens no scopes. -/
@[simp] theorem count_defineAll (s : Scopes) (id : ScopeId) (params : List Token)
    (args : List Value) : (s.defineAll id params args).count = s.count :=
  defineAll_induction (motive := fun s' => s'.count = s.count) id rfl fun _ _ _ _ _ h => by
    rw [count_define, h]

/-- Binding parameters keeps parents older. -/
theorem Nested.defineAll {s : Scopes} (h : s.Nested) (id : ScopeId) (params : List Token)
    (args : List Value) : (s.defineAll id params args).Nested :=
  defineAll_induction id h fun _ _ _ _ _ h => h.define _ _ _

/-- Binding good parameters to good arguments keeps all that is bound good. -/
theorem Holds.defineAll {s : Scopes} (h : s.Holds K V) (id : ScopeId) {params : List Token}
    {args : List Value} (hparams : ∀ p ∈ params, K p.lexeme) (hargs : ∀ v ∈ args, V v) :
    (s.defineAll id params args).Holds K V :=
  defineAll_induction id h fun _ p hp v hv h => h.define _ (hparams p hp) (hargs v hv)

/-! ### Looking for a name -/

/-- The scope `owner` is the nearest one, from `id` outwards, that binds the name. -/
inductive Nearest (s : Scopes) (name : Symbol) : ScopeId → ScopeId → Prop where
  | here {id : ScopeId} {scope : Scope} :
      s.at? id = some scope → scope.binds name = true → Nearest s name id id
  | outward {id parent owner : ScopeId} {scope : Scope} :
      s.at? id = some scope → scope.binds name = false → scope.parent = some parent →
      Nearest s name parent owner → Nearest s name id owner

/-- One step of the search. -/
theorem resolve_eq (s : Scopes) (name : Symbol) (id : ScopeId) :
    s.resolve name id =
      match s.at? id with
      | none => none
      | some scope =>
        if scope.binds name then some id
        else
          match scope.parent with
          | none => none
          | some parent => if parent < id then s.resolve name parent else none := by
  rw [resolve]
  rfl

/-- The search finds the nearest scope that binds the name, if any does. -/
theorem resolve_eq_some {s : Scopes} (h : s.Nested) {name : Symbol} {id owner : ScopeId} :
    s.resolve name id = some owner ↔ s.Nearest name id owner := by
  constructor
  · intro hresolve
    -- On the scope: the nesting says that each step of the search goes to an older one, so the
    -- check in `resolve` never stops it.
    induction id using Nat.strongRecOn with
    | ind id ih =>
        rw [resolve_eq] at hresolve
        split at hresolve
        case h_1 => cases hresolve
        case h_2 scope hscope =>
          split at hresolve
          case isTrue hbinds =>
            cases hresolve
            exact .here hscope hbinds
          case isFalse hbinds =>
            split at hresolve
            case h_1 => cases hresolve
            case h_2 parent hparent =>
              have hlt : parent < id := h id scope hscope parent hparent
              rw [if_pos hlt] at hresolve
              exact .outward hscope (by simpa using hbinds) hparent (ih parent hlt hresolve)
  · intro hnearest
    induction hnearest with
    | here hscope hbinds =>
        rw [resolve_eq, hscope]
        simp [hbinds]
    | outward hscope hbinds hparent _ ih =>
        have hlt := h _ _ hscope _ hparent
        rw [resolve_eq, hscope]
        simp [hbinds, hparent, hlt, ih]

/-- The search finds nothing if no scope outwards binds the name. -/
theorem resolve_eq_none {s : Scopes} (h : s.Nested) {name : Symbol} {id : ScopeId} :
    s.resolve name id = none ↔ ∀ owner, ¬ s.Nearest name id owner := by
  rw [Option.eq_none_iff_forall_ne_some]
  exact forall_congr' fun owner => not_congr (resolve_eq_some h)

/-- The scope that was found binds the name to a value. -/
theorem Nearest.value {s : Scopes} {name : Symbol} {id owner : ScopeId}
    (h : s.Nearest name id owner) :
    ∃ scope value, s.at? owner = some scope ∧ scope.find? name = some value := by
  induction h with
  | @here id scope hscope hbinds =>
      obtain ⟨binding, hmem, hname⟩ := List.any_eq_true.1 hbinds
      -- `binds` and `find?` look through the same bindings.
      cases hfind : scope.bindings.find? fun binding => binding.1 == name with
      | none => exact absurd hname (by simpa using List.find?_eq_none.1 hfind binding hmem)
      | some found => exact ⟨scope, found.2, hscope, by simp [Scope.find?, hfind]⟩
  | outward _ _ _ _ ih => exact ih

/-- Every value that is found is one that is held. -/
theorem Holds.get? {s : Scopes} (h : s.Holds K V) {id : ScopeId} {name : Symbol} {v : Value}
    (hget : s.get? id name = some v) : V v := by
  simp only [Scopes.get?, Option.bind_eq_bind, Option.bind_eq_some_iff] at hget
  obtain ⟨owner, -, scope, hscope, hfind⟩ := hget
  obtain ⟨binding, hbinding, rfl⟩ := Option.map_eq_some_iff.1 hfind
  exact (h owner scope hscope binding (List.mem_of_find?_eq_some hbinding)).2

end Scopes

end Scriptlet
