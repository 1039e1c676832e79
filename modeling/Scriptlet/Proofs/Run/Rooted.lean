import Scriptlet.Proofs.Run.Chain
import Scriptlet.Proofs.Run.Place
import Scriptlet.Proofs.Run.Sound

/-!
# `Scriptlet.Proofs.Run.Rooted`: all chains lead to the outermost scope

Function values are bound in scopes and remember scopes, so what is stored is full of cycles: a
function is usually bound in the very scope that it remembers. The links from a scope to the
scope around it have none. `Scopes.Outward` walks along these links, and only along them. It is an
inductive relation, so that a walk exists only where the links come to an end.

* `Scopes.Rooted.exists_outward`: from every scope there is a walk, and it ends at the root.
* `Scopes.Outward.get?_eq`, `Scopes.Outward.assign?_eq`: reading and assignment go along this
  walk and stop at the first scope that binds the name.
* `orderUpkeep_lawful`: programs open scopes only inside existing ones and move none, so that no
  run makes a second root.
* `Machine.InOrder.wellChained`: what all this comes to for a machine whose scopes are in order.
-/

set_option autoImplicit false

namespace Scriptlet

/-- A scope binds the names for which a value is found. -/
theorem Scope.binds_eq_isSome (scope : Scope) (name : Symbol) :
    scope.binds name = (scope.find? name).isSome := by
  simp only [binds, find?, Option.isSome_map]
  rw [Bool.eq_iff_iff, List.find?_isSome, List.any_eq_true]

namespace Scopes

variable {s s' : Scopes} {scope : Scope} {i root : ScopeId} {path : List ScopeId}

/-! ### Walks outward -/

/-- The scopes from `i` outward, each right inside the next, up to one that is in no other. -/
inductive Outward (s : Scopes) : ScopeId → List ScopeId → Prop where
  | root {i : ScopeId} {scope : Scope} : s.at? i = some scope → scope.parent = none →
      Outward s i [i]
  | inside {i p : ScopeId} {scope : Scope} {path : List ScopeId} : s.at? i = some scope →
      scope.parent = some p → Outward s p path → Outward s i (i :: path)

/-- There is one scope that is in no other, the root. -/
structure Rooted (root : ScopeId) (s : Scopes) : Prop where
  exists_root : root < s.count
  parent?_root : s.parent? root = none
  eq_root {i : ScopeId} : i < s.count → s.parent? i = none → i = root

/-- Below the number of scopes there is one at each place. -/
theorem exists_at? (h : i < s.count) : ∃ scope, s.at? i = some scope :=
  ⟨_, Array.getElem?_eq_getElem h⟩

/-- From every scope there is a walk outward. It ends at the root. -/
theorem Rooted.exists_outward (hroot : s.Rooted root) (hs : s.Nested) (hi : i < s.count) :
    ∃ path, s.Outward i path ∧ path.getLast? = some root := by
  -- On the number of the scope: the scope around it is older.
  induction i using Nat.strongRecOn with
  | ind i ih =>
      obtain ⟨scope, hscope⟩ := exists_at? hi
      cases hparent : scope.parent with
      | none =>
          have heq := hroot.eq_root hi ((parent?_of_at? hscope).trans hparent)
          exact ⟨[i], .root hscope hparent, by rw [heq]; rfl⟩
      | some p =>
          have hlt : p < i := hs i scope hscope p hparent
          obtain ⟨path, hpath, hlast⟩ := ih p hlt (Nat.lt_trans hlt hi)
          refine ⟨i :: path, .inside hscope hparent hpath, ?_⟩
          rw [List.getLast?_cons, hlast]
          rfl

/-- A walk comes to older scopes only. -/
theorem Outward.le (h : s.Outward i path) (hs : s.Nested) : ∀ j ∈ path, j ≤ i := by
  induction h with
  | root => simp
  | inside hscope hparent _ ih =>
      have hlt := hs _ _ hscope _ hparent
      intro j hj
      rcases List.mem_cons.1 hj with rfl | hj
      · exact Nat.le_refl j
      · exact Nat.le_trans (ih j hj) (Nat.le_of_lt hlt)

/-- A walk comes to no scope twice. -/
theorem Outward.nodup (h : s.Outward i path) (hs : s.Nested) : path.Nodup := by
  induction h with
  | root => simp
  | inside hscope hparent hpath ih =>
      have hlt := hs _ _ hscope _ hparent
      refine List.nodup_cons.2 ⟨fun hmem => ?_, ih⟩
      exact Nat.not_le_of_lt hlt (hpath.le hs _ hmem)

/-- No scope is inside itself, however far. -/
theorem Nested.acyclic (hs : s.Nested) (i : ScopeId) :
    ¬ Relation.TransGen (fun i p => s.parent? i = some p) i i := by
  have hlt : ∀ j, Relation.TransGen (fun i p => s.parent? i = some p) i j → j < i := by
    intro j h
    induction h with
    | single hparent => exact hs.parent_lt hparent
    | tail _ hparent ih => exact Nat.lt_trans (hs.parent_lt hparent) ih
  exact fun h => Nat.lt_irrefl i (hlt i h)

/-! ### Searches -/

/-- The value of a name in this very scope. -/
def valueAt (s : Scopes) (name : Symbol) (i : ScopeId) : Option Value :=
  (s.at? i).bind fun scope => scope.find? name

/-- A scope binds a name exactly if there is a value for it. -/
theorem binds_eq_valueAt (h : s.at? i = some scope) (name : Symbol) :
    scope.binds name = (s.valueAt name i).isSome := by
  rw [Scope.binds_eq_isSome, valueAt, h]
  rfl

/-- The search for a name goes along the walk and stops at the first scope that binds it. -/
theorem Outward.resolve_eq (h : s.Outward i path) (hs : s.Nested) (name : Symbol) :
    s.resolve name i = path.find? fun j => (s.valueAt name j).isSome := by
  induction h with
  | root hscope hparent =>
      rw [Scopes.resolve_eq, hscope]
      simp only [binds_eq_valueAt hscope, hparent, List.find?_cons, List.find?_nil]
      split <;> simp_all
  | inside hscope hparent _ ih =>
      -- The guard of the search is no obstacle, since the scope around is older.
      have hlt := hs _ _ hscope _ hparent
      rw [Scopes.resolve_eq, hscope]
      simp only [binds_eq_valueAt hscope, hparent, if_pos hlt, ih, List.find?_cons]
      split <;> simp_all

/-- The first hit of a search, and its value. -/
theorem findSome?_eq_bind_find? {α β : Type} (f : α → Option β) (xs : List α) :
    xs.findSome? f = (xs.find? fun x => (f x).isSome).bind f := by
  induction xs with
  | nil => rfl
  | cons x xs ih =>
      cases hx : f x with
      | none => simp [hx, ih]
      | some y => simp [hx]

/-- A name has the first value that is found on the walk. -/
theorem Outward.get?_eq (h : s.Outward i path) (hs : s.Nested) (name : Symbol) :
    s.get? i name = path.findSome? (s.valueAt name) := by
  rw [findSome?_eq_bind_find?, ← h.resolve_eq hs]
  rfl

/-- An assignment goes to the first scope on the walk that binds the name. -/
theorem Outward.assign?_eq (h : s.Outward i path) (hs : s.Nested) (name : Symbol) (v : Value) :
    s.assign? i name v = (path.find? fun j => (s.valueAt name j).isSome).map
      fun owner => s.assignAt owner name v := by
  rw [← h.resolve_eq hs]
  rfl

/-! ### Stores that spread -/

/-- An assignment moves no scope. -/
theorem grows_assignAt (owner : ScopeId) (name : Symbol) (v : Value) :
    s.Grows (s.assignAt owner name v) :=
  grows_modify (f := fun scope => scope.assign name v) (fun _ => rfl) owner

/-- Scopes are opened inside others only, and no scope is moved. -/
structure Spreads (s s' : Scopes) : Prop extends s.Grows s' where
  opened {i : ScopeId} : s.count ≤ i → i < s'.count → s'.parent? i ≠ none

/-- A store with as many scopes as before has no new ones. -/
theorem Grows.spreads (h : s.Grows s') (hcount : s'.count = s.count) : s.Spreads s' :=
  ⟨h, fun hge hlt => absurd (hcount ▸ hlt) (Nat.not_lt_of_le hge)⟩

/-- Scopes that are opened inside of old ones, and more inside of those. -/
theorem Spreads.trans {s₁ : Scopes} (h : s.Spreads s') (h' : s'.Spreads s₁) : s.Spreads s₁ := by
  refine ⟨h.toGrows.trans h'.toGrows, fun {i} hge hlt => ?_⟩
  by_cases hi : i < s'.count
  · rw [h'.parent hi]
    exact h.opened hge hi
  · exact h'.opened (Nat.le_of_not_lt hi) hlt

/-- No new root comes up. -/
theorem Rooted.spreads (hroot : s.Rooted root) (h : s.Spreads s') : s'.Rooted root where
  exists_root := Nat.lt_of_lt_of_le hroot.exists_root h.count
  parent?_root := (h.parent hroot.exists_root).trans hroot.parent?_root
  eq_root := by
    intro i hi hparent
    by_cases hold : i < s.count
    · exact hroot.eq_root hold ((h.parent hold).symm.trans hparent)
    · exact absurd hparent (h.opened (Nat.le_of_not_lt hold) hi)

end Scopes

/-! ### Machines -/

/-- The scopes of the machine are in order, and the outermost scope is around all of them. -/
structure Machine.InOrder (m : Machine) : Prop where
  wellFormed : m.WellFormed
  rooted : m.scopes.Rooted m.globals

/-- The machine `m₁` is in order and has all scopes of `m`, each where it was. -/
structure Machine.Grown (m m₁ : Machine) : Prop where
  inOrder : m₁.InOrder
  globals : m₁.globals = m.globals
  spreads : m.scopes.Spreads m₁.scopes

/-- Machines in order stay so. -/
def orderUpkeep : Upkeep where
  Ready m := m.InOrder
  Change m m₁ := m.Grown m₁ ∧ m₁.current = m.current
  Holds m f := f.Fits (fun _ => True) m.scopes.count
  Evals _ := True
  Runs _ := True

/-- Growing goes on. -/
theorem Machine.Grown.trans {m m₁ m₂ : Machine} (h : m.Grown m₁) (h' : m₁.Grown m₂) :
    m.Grown m₂ :=
  ⟨h'.inOrder, h'.globals.trans h.globals, h.spreads.trans h'.spreads⟩

/-- A machine with one scope that binds nothing is in order. -/
theorem Machine.inOrder_blank (input : Reader) (output : Sink) (generator : Generator)
    (clock : Clock) : (blank input output generator clock).InOrder where
  wellFormed := sound_blank _ input output generator clock
  rooted := ⟨Nat.one_pos, rfl, fun hi _ => Nat.lt_one_iff.1 hi⟩

/-- The way into a new scope adds that scope. -/
theorem Machine.inside_spreads (m : Machine) (parent : ScopeId) (params : List Token)
    (args : List Value) : m.scopes.Spreads (m.inside parent params args).scopes := by
  have hdefined : (m.scopes.openScope (some parent)).2.Grows
      (m.inside parent params args).scopes := Scopes.grows_defineAll _ _ _
  refine ⟨(Scopes.grows_openScope (some parent)).trans hdefined, fun {i} hge hlt => ?_⟩
  rw [Machine.Sound.count_inside] at hlt
  have hi : i = m.scopes.count := Nat.le_antisymm (Nat.le_of_lt_succ hlt) hge
  rw [hdefined.parent (by simp [hi]), Scopes.parent?, Scopes.at?_openScope, if_pos hi]
  simp

namespace Machine.InOrder

variable {m m₁ : Machine}

/-- Where no second root came up, a well-formed machine is in order. -/
theorem grown (h : m.InOrder) (hsound : m₁.WellFormed) (hglobals : m₁.globals = m.globals)
    (hspreads : m.scopes.Spreads m₁.scopes) : m.Grown m₁ :=
  ⟨⟨hsound, hglobals ▸ h.rooted.spreads hspreads⟩, hglobals, hspreads⟩

/-- A change that keeps the machine well-formed and adds no root keeps it in order. -/
theorem changed (h : m.InOrder) (hlater : m.Later (fun _ => True) m₁)
    (hspreads : m.scopes.Spreads m₁.scopes) : orderUpkeep.Change m m₁ :=
  ⟨h.grown hlater.sound hlater.globals hspreads, hlater.current⟩

/-- The same machine but for what is no scope. -/
theorem of_eq (h : m.InOrder) (hscopes : m₁.scopes = m.scopes)
    (hcurrent : m₁.current = m.current) (hglobals : m₁.globals = m.globals) : m₁.InOrder :=
  ⟨h.wellFormed.of_eq hscopes hcurrent hglobals, by rw [hscopes, hglobals]; exact h.rooted⟩

/-- The way into a new scope inside an existing one. -/
theorem inside (h : m.InOrder) {parent : ScopeId} (hparent : parent < m.scopes.count)
    {params : List Token} {args : List Value}
    (hargs : ∀ v ∈ args, v.Fits (fun _ => True) m.scopes.count) :
    m.Grown (m.inside parent params args) :=
  h.grown (h.wellFormed.inside hparent (fun _ _ => trivial) hargs) rfl (m.inside_spreads _ _ _)

end Machine.InOrder

/-- As for sound machines: a value is held if it fits. -/
theorem orderUpkeep_holdsValue {m : Machine} {v : Value} :
    orderUpkeep.HoldsValue m v ↔ v.Fits (fun _ => True) m.scopes.count := by
  cases v <;> rfl

/-- Every small step keeps the machine in order. Scopes are opened for blocks and calls only, and
those have a scope around them. -/
theorem orderUpkeep_lawful : orderUpkeep.Lawful where
  refl h := h.changed ((soundUpkeep_lawful _).refl h.wellFormed) ((Scopes.Grows.refl _).spreads rfl)
  trans h h' := ⟨h.1.trans h'.1, h'.2.trans h.2⟩
  ready h := h.1.inOrder
  holds h hf := Callable.Fits.mono (K := fun _ => True) hf h.1.spreads.count
  holds_enter h := h
  parts_evals _ _ := trivial
  parts_runs _ _ := trivial
  exprs_evals _ _ := trivial
  body_runs _ _ := trivial
  note record h := h.changed ((soundUpkeep_lawful _).note record h.wellFormed)
    ((Scopes.Grows.refl _).spreads rfl)
  native op args h _ := by
    obtain ⟨input, output, generator, clock, hrun⟩ := Native.run_machine op args _
    rw [hrun]
    exact ⟨h.grown (h.wellFormed.of_eq rfl rfl rfl) rfl ((Scopes.Grows.refl _).spreads rfl), rfl⟩
  get h hget := (soundUpkeep_lawful _).get h.wellFormed hget
  assign _ h hv _ :=
    ⟨h.grown (h.wellFormed.assignAt _ _ (orderUpkeep_holdsValue.1 hv)) rfl
      ((Scopes.grows_assignAt _ _ _).spreads (Scopes.count_assignAt _ _ _ _)), rfl⟩
  declare _ h hv :=
    ⟨h.grown (h.wellFormed.define trivial (orderUpkeep_holdsValue.1 hv)) rfl
      ((Scopes.grows_define _ _ _).spreads (Scopes.count_define _ _ _ _)), rfl⟩
  function _ h := h.changed ((soundUpkeep_lawful _).function (fun _ _ => trivial) h.wellFormed)
    ((Scopes.grows_define _ _ _).spreads (Scopes.count_define _ _ _ _))
  block h := (h.inside h.wellFormed.current (by simp)).inOrder
  call h hf hargs := (h.inside hf.1 fun v hv => orderUpkeep_holdsValue.1 (hargs v hv)).inOrder
  leave := by
    intro m m₁ parent params args h hchange
    have hlater : (m.inside parent params args).Later (fun _ => True) m₁ :=
      ⟨hchange.1.inOrder.wellFormed, hchange.2, hchange.1.globals, hchange.1.spreads.count⟩
    exact h.changed ((soundUpkeep_lawful _).leave h.wellFormed hlater)
      ((m.inside_spreads _ _ _).trans hchange.1.spreads)

/-! ### What order comes to -/

/-- What the scopes of a machine are like, without a word on how they are numbered. -/
structure Machine.WellChained (m : Machine) : Prop where
  /-- The current scope exists. -/
  current : m.current < m.scopes.count
  /-- Every function value that is bound anywhere remembers a scope that exists. -/
  closures {i : ScopeId} {scope : Scope} {name : Symbol} {f : Callable} {closure : ScopeId} :
    m.scopes.at? i = some scope → (name, .callable f) ∈ scope.bindings →
      f.closure? = some closure → closure < m.scopes.count
  /-- The outermost scope is the one scope that is in no other. -/
  root {i : ScopeId} : i < m.scopes.count → (m.scopes.parent? i = none ↔ i = m.globals)
  /-- No scope is inside itself. -/
  acyclic (i : ScopeId) : ¬ Relation.TransGen (fun i p => m.scopes.parent? i = some p) i i
  /-- The way outward from a scope comes to an end, and this is the outermost scope. Names are
  looked up and assigned along this way. -/
  chain {i : ScopeId} : i < m.scopes.count → ∃ path, m.scopes.Outward i path ∧ path.Nodup ∧
    path.getLast? = some m.globals ∧
    ∀ name, m.scopes.get? i name = path.findSome? (m.scopes.valueAt name) ∧
      ∀ v, m.scopes.assign? i name v
        = (path.find? fun j => (m.scopes.valueAt name j).isSome).map
          fun owner => m.scopes.assignAt owner name v
  /-- Looking up a name and assigning to it fail only if the outermost scope, too, lacks it. -/
  lacks {i : ScopeId} {name : Symbol} {v : Value} : i < m.scopes.count →
    m.scopes.get? i name = none ∨ m.scopes.assign? i name v = none →
      m.scopes.valueAt name m.globals = none

/-- A machine in order has a walk from each scope, and its names are found along these walks. -/
theorem Machine.InOrder.wellChained {m : Machine} (h : m.InOrder) : m.WellChained where
  current := h.wellFormed.current
  closures := by
    intro i scope name f closure hscope hbound hclosure
    have hfits : f.Fits (fun _ => True) m.scopes.count :=
      (h.wellFormed.holds i scope hscope _ hbound).2
    obtain ⟨identity, code⟩ := f
    cases code with
    | native => cases hclosure
    | user decl closure =>
        cases hclosure
        exact hfits.1
  root hi := ⟨fun hparent => h.rooted.eq_root hi hparent, fun heq => heq ▸ h.rooted.parent?_root⟩
  acyclic i := h.wellFormed.nested.acyclic i
  chain := by
    intro i hi
    obtain ⟨path, hpath, hlast⟩ := h.rooted.exists_outward h.wellFormed.nested hi
    exact ⟨path, hpath, hpath.nodup h.wellFormed.nested, hlast, fun name =>
      ⟨hpath.get?_eq h.wellFormed.nested name, hpath.assign?_eq h.wellFormed.nested name⟩⟩
  lacks := by
    intro i name v hi hfails
    obtain ⟨path, hpath, hlast⟩ := h.rooted.exists_outward h.wellFormed.nested hi
    -- The search that fails has come to the end of the way, which is the outermost scope.
    have hmem : m.globals ∈ path := List.mem_of_getLast? hlast
    rw [hpath.get?_eq h.wellFormed.nested, hpath.assign?_eq h.wellFormed.nested,
      List.findSome?_eq_none_iff, Option.map_eq_none_iff, List.find?_eq_none] at hfails
    rcases hfails with hget | hassign
    · exact hget m.globals hmem
    · simpa using hassign m.globals hmem

end Scriptlet
