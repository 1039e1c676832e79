import Scriptlet.Proofs.Run.Bindings
import Scriptlet.Proofs.Run.Chain
import Scriptlet.Proofs.Run.Coupling
import Scriptlet.Proofs.Run.Sound

/-!
# `Scriptlet.Proofs.Run.Collapse`: scopes without bindings do not matter

Two runs of which the second opens a scope now and then that the first does without. As long as
nothing is declared in such a scope, names are seen through it as if it were not there.

A `Pairing` says which scopes correspond: those that are `settled` bind the same names, and a
`pad` of a scope is a scope without bindings that leads to a counterpart of it. A scope may have
many pads. `Scopes.Collapsed` is what the two stores keep to.

* `collapseCoupling_lawful`: looking up, declaring, assigning and opening scopes on both sides
  respect the pairing.
* `Machine.WellFormed.collapsed`: a machine whose scopes are in order is coupled with itself.
* `Machine.Coupled.pad`: the second run may open a pad at any time.
-/

set_option autoImplicit false

namespace Scriptlet

/-- How the scopes of two runs correspond. -/
structure Pairing where
  /-- Scopes that bind the same names. -/
  settled : ScopeId → ScopeId → Prop
  /-- A scope of the first run, and a scope without bindings around which it is met in the
  second run. -/
  pad : ScopeId → ScopeId → Prop

namespace Pairing

/-- Scopes from which the same names are seen. -/
def Scope (w : Pairing) (i i' : ScopeId) : Prop := w.settled i i' ∨ w.pad i i'

/-- All that corresponds in the first pairing corresponds in the second one. -/
structure Le (w w₁ : Pairing) : Prop where
  settled {i i' : ScopeId} : w.settled i i' → w₁.settled i i'
  pad {i i' : ScopeId} : w.pad i i' → w₁.pad i i'

/-- The first `count` scopes correspond to themselves. -/
def identity (count : Nat) : Pairing where
  settled i i' := i = i' ∧ i < count
  pad _ _ := False

/-- Two more scopes correspond. -/
def settle (w : Pairing) (j j' : ScopeId) : Pairing where
  settled i i' := w.settled i i' ∨ (i = j ∧ i' = j')
  pad := w.pad

/-- One more pad. -/
def addPad (w : Pairing) (j j' : ScopeId) : Pairing where
  settled := w.settled
  pad i i' := w.pad i i' ∨ (i = j ∧ i' = j')

variable {w w₁ w₂ : Pairing} {i i' j j' : ScopeId}

/-- Scopes that correspond go on to correspond. -/
theorem Le.scope (h : w.Le w₁) (hscope : w.Scope i i') : w₁.Scope i i' :=
  hscope.imp h.settled h.pad

/-- Settling more scopes takes nothing away. -/
theorem le_settle : w.Le (w.settle j j') := ⟨.inl, id⟩

/-- Nor does another pad. -/
theorem le_addPad : w.Le (w.addPad j j') := ⟨id, .inl⟩

end Pairing

/-- Scopes inside corresponding ones that bind the same names to corresponding values. -/
structure Scope.Paired (S : ScopeId → ScopeId → Prop) (c c' : Scope) : Prop where
  parent : c.parent.Rel S c'.parent
  bindings : Scope.SameBindings Eq (Value.Coupled S) c.bindings c'.bindings

namespace Scope.Paired

variable {S S' : ScopeId → ScopeId → Prop} {c c' : Scope}

/-- A name is itself on both sides. -/
theorem beq_eq {a a' b b' : Symbol} (ha : a = a') (hb : b = b') : (a == b) = (a' == b') := by
  rw [ha, hb]

/-- Paired scopes bind the same names. -/
theorem binds_eq (h : c.Paired S c') (name : Symbol) : c.binds name = c'.binds name :=
  binds_eq_of_same beq_eq h.bindings rfl

/-- They stay paired when more scopes correspond. -/
theorem mono (h : c.Paired S c') (hS : ∀ i i', S i i' → S' i i') : c.Paired S' c' where
  parent := by
    obtain ⟨hparent, -⟩ := h
    generalize c.parent = parent, c'.parent = parent' at hparent
    cases hparent with
    | none => exact .none
    | some hp => exact .some (hS _ _ hp)
  bindings := h.bindings.imp fun _ _ hb => ⟨hb.1, hb.2.mono hS⟩

/-- Defining a name in both keeps them paired. -/
theorem define (h : c.Paired S c') (name : Symbol) {v v' : Value} (hv : v.Coupled S v') :
    (c.define name v).Paired S (c'.define name v') where
  parent := by
    rw [parent_define, parent_define]
    exact h.parent
  bindings := define_of_same beq_eq h.bindings rfl hv

/-- So does assigning to a name. -/
theorem assign (h : c.Paired S c') (name : Symbol) {v v' : Value} (hv : v.Coupled S v') :
    (c.assign name v).Paired S (c'.assign name v') :=
  ⟨h.parent, rebind_of_same beq_eq h.bindings rfl hv⟩

end Scope.Paired

/-- Two stores that keep to a pairing. -/
structure Scopes.Collapsed (w : Pairing) (s s' : Scopes) : Prop where
  nested : s.Nested
  nested' : s'.Nested
  /-- Settled scopes have one counterpart each. -/
  unique {i i' j' : ScopeId} : w.settled i i' → w.settled i j' → i' = j'
  unique' {i j i' : ScopeId} : w.settled i i' → w.settled j i' → i = j
  /-- A pad is never settled. -/
  apart {i j i' : ScopeId} : w.settled i i' → ¬ w.pad j i'
  cell {i i' : ScopeId} : w.settled i i' →
    ∃ c c', s.at? i = some c ∧ s'.at? i' = some c' ∧ c.Paired w.Scope c'
  /-- A pad binds nothing and leads on to a counterpart. -/
  padded {i i' : ScopeId} : w.pad i i' →
    ∃ p', s'.at? i' = some ⟨some p', []⟩ ∧ w.Scope i p'

namespace Scopes.Collapsed

variable {w : Pairing} {s s' : Scopes} {i i' : ScopeId}

/-- Names are found in settled scopes, through any number of pads. -/
theorem resolve (h : Collapsed w s s') (name : Symbol) (hscope : w.Scope i i') :
    (s.resolve name i).Rel w.settled (s'.resolve name i') := by
  -- On the scope of the second store, which each step leaves for an older one.
  induction i' using Nat.strongRecOn generalizing i with
  | ind i' ih =>
      rcases hscope with hsettled | hpad
      · obtain ⟨c, c', hc, hc', hpaired⟩ := h.cell hsettled
        rw [Scopes.resolve_eq s, Scopes.resolve_eq s', hc, hc']
        dsimp only
        rw [hpaired.binds_eq]
        split
        · exact .some hsettled
        · have hparent := hpaired.parent
          generalize hp : c.parent = parent, hp' : c'.parent = parent' at hparent
          cases hparent with
          | none => exact .none
          | @some p p' hparent =>
              have hlt : p < i := h.nested i c hc p hp
              have hlt' : p' < i' := h.nested' i' c' hc' p' hp'
              dsimp only
              rw [if_pos hlt, if_pos hlt']
              exact ih p' hlt' hparent
      · obtain ⟨p', hc', hp'⟩ := h.padded hpad
        have hlt' : p' < i' := h.nested' i' _ hc' p' rfl
        rw [Scopes.resolve_eq s', hc']
        show (s.resolve name i).Rel w.settled
          (if p' < i' then s'.resolve name p' else none)
        rw [if_pos hlt']
        exact ih p' hlt' hp'

/-- What is found under a name corresponds, through any number of pads. -/
theorem get (h : Collapsed w s s') (name : Symbol) (hscope : w.Scope i i') :
    (s.get? i name).Rel (Value.Coupled w.Scope) (s'.get? i' name) := by
  have howner := h.resolve name hscope
  unfold Scopes.get?
  generalize s.resolve name i = owner, s'.resolve name i' = owner' at howner
  cases howner with
  | none => exact .none
  | @some j j' hsettled =>
      obtain ⟨c, c', hc, hc', hpaired⟩ := h.cell hsettled
      show (s.at? j >>= fun scope => scope.find? name).Rel _
        (s'.at? j' >>= fun scope => scope.find? name)
      rw [hc, hc']
      exact Scope.find?_of_same Scope.Paired.beq_eq hpaired.bindings rfl

/-- Settled scopes may be changed alike. -/
theorem modify (h : Collapsed w s s') (hsettled : w.settled i i') {f f' : Scope → Scope}
    (hparent : ∀ c, (f c).parent = c.parent) (hparent' : ∀ c, (f' c).parent = c.parent)
    (hf : ∀ c c', c.Paired w.Scope c' → (f c).Paired w.Scope (f' c')) :
    Collapsed w ⟨s.cells.modify i f⟩ ⟨s'.cells.modify i' f'⟩ where
  nested := h.nested.modify i hparent
  nested' := h.nested'.modify i' hparent'
  unique := h.unique
  unique' := h.unique'
  apart := h.apart
  cell := by
    intro j j' hj
    obtain ⟨c, c', hc, hc', hpaired⟩ := h.cell hj
    rw [at?_modify, at?_modify, hc, hc']
    -- The scope is changed on both sides or on none.
    by_cases hji : j = i
    · subst hji
      have hji' := h.unique hj hsettled
      rw [if_pos rfl, if_pos hji']
      exact ⟨f c, f' c', rfl, rfl, hf c c' hpaired⟩
    · have hji' : j' ≠ i' := fun heq => hji (h.unique' hj (heq ▸ hsettled))
      rw [if_neg hji, if_neg hji']
      exact ⟨c, c', rfl, rfl, hpaired⟩
  padded := by
    intro j j' hj
    have hne : j' ≠ i' := fun heq => h.apart hsettled (heq ▸ hj)
    rw [at?_modify, if_neg hne]
    exact h.padded hj

/-- A scope that is met with in the second store exists. -/
theorem lt_count (h : Collapsed w s s') (hscope : w.Scope i i') : i' < s'.count := by
  rcases hscope with hsettled | hpad
  · obtain ⟨c, c', -, hc', -⟩ := h.cell hsettled
    exact lt_count_of_at? hc'
  · obtain ⟨p', hc', -⟩ := h.padded hpad
    exact lt_count_of_at? hc'

/-- A settled scope exists in the first store. -/
theorem settled_lt_count (h : Collapsed w s s') (hsettled : w.settled i i') : i < s.count := by
  obtain ⟨c, c', hc, -⟩ := h.cell hsettled
  exact lt_count_of_at? hc

/-- The first store may be met with from a scope that exists, or from a pad of one. -/
theorem scope_lt_count (h : Collapsed w s s') (hscope : w.Scope i i') : i < s.count := by
  induction i' using Nat.strongRecOn with
  | ind i' ih =>
      rcases hscope with hsettled | hpad
      · exact h.settled_lt_count hsettled
      · obtain ⟨p', hc', hp'⟩ := h.padded hpad
        exact ih p' (h.nested' i' _ hc' p' rfl) hp'

/-- A scope that was there is not the new one. -/
theorem at?_openScope_of_some {s : Scopes} {j : ScopeId} {c : Scope} (h : s.at? j = some c)
    (parent : Option ScopeId) : (s.openScope parent).2.at? j = some c := by
  rw [at?_openScope, if_neg (Nat.ne_of_lt (lt_count_of_at? h)), h]

/-- New scopes in corresponding ones are settled. -/
theorem openScope (h : Collapsed w s s') (hscope : w.Scope i i') :
    Collapsed (w.settle s.count s'.count) (s.openScope (some i)).2
      (s'.openScope (some i')).2 where
  nested := h.nested.openScope fun p hp => Option.some.inj hp ▸ h.scope_lt_count hscope
  nested' := h.nested'.openScope fun p hp => Option.some.inj hp ▸ h.lt_count hscope
  -- The new scopes have the next numbers, so neither corresponds to anything yet.
  unique := by
    rintro j k k' (hk | ⟨rfl, rfl⟩) (hk' | ⟨hj, rfl⟩)
    · exact h.unique hk hk'
    · exact absurd (h.settled_lt_count hk) (hj ▸ Nat.lt_irrefl _)
    · exact absurd (h.settled_lt_count hk') (Nat.lt_irrefl _)
    · rfl
  unique' := by
    rintro j k k' (hk | ⟨rfl, rfl⟩) (hk' | ⟨rfl, hj⟩)
    · exact h.unique' hk hk'
    · exact absurd (h.lt_count (.inl hk)) (hj ▸ Nat.lt_irrefl _)
    · exact absurd (h.lt_count (.inl hk')) (Nat.lt_irrefl _)
    · rfl
  apart := by
    rintro j k k' (hk | ⟨rfl, rfl⟩) hpad
    · exact h.apart hk hpad
    · exact absurd (h.lt_count (.inr hpad)) (Nat.lt_irrefl _)
  cell := by
    have hle : w.Le (w.settle s.count s'.count) := Pairing.le_settle
    rintro j j' (hj | ⟨rfl, rfl⟩)
    · obtain ⟨c, c', hc, hc', hpaired⟩ := h.cell hj
      exact ⟨c, c', at?_openScope_of_some hc _, at?_openScope_of_some hc' _,
        hpaired.mono fun _ _ => hle.scope⟩
    · refine ⟨⟨some i, []⟩, ⟨some i', []⟩, ?_, ?_, .some (hle.scope hscope), .nil⟩
      · rw [at?_openScope, if_pos rfl]
      · rw [at?_openScope, if_pos rfl]
  padded := by
    intro j j' hj
    obtain ⟨p', hc', hp'⟩ := h.padded hj
    exact ⟨p', at?_openScope_of_some hc' _, Pairing.le_settle.scope hp'⟩

/-- The second store may open a pad. -/
theorem openPad (h : Collapsed w s s') (hscope : w.Scope i i') :
    Collapsed (w.addPad i s'.count) s (s'.openScope (some i')).2 where
  nested := h.nested
  nested' := h.nested'.openScope fun p hp => Option.some.inj hp ▸ h.lt_count hscope
  unique := h.unique
  unique' := h.unique'
  -- The pad has a new number in the second store, which no settled scope has.
  apart := by
    rintro j k k' hk (hpad | ⟨rfl, rfl⟩)
    · exact h.apart hk hpad
    · exact absurd (h.lt_count (.inl hk)) (Nat.lt_irrefl _)
  cell := by
    intro j j' hj
    obtain ⟨c, c', hc, hc', hpaired⟩ := h.cell hj
    exact ⟨c, c', hc, at?_openScope_of_some hc' _,
      hpaired.mono fun _ _ => Pairing.le_addPad.scope⟩
  padded := by
    rintro j j' (hj | ⟨rfl, rfl⟩)
    · obtain ⟨p', hc', hp'⟩ := h.padded hj
      exact ⟨p', at?_openScope_of_some hc' _, Pairing.le_addPad.scope hp'⟩
    · refine ⟨i', ?_, Pairing.le_addPad.scope hscope⟩
      rw [at?_openScope, if_pos rfl]

end Scopes.Collapsed

/-! ### The coupling -/

/-- Two runs, of which the second opens pads. -/
def collapseCoupling : Coupling where
  World := Pairing
  Le := Pairing.Le
  Scope := Pairing.Scope
  Settled := Pairing.settled
  Stores := Scopes.Collapsed
  Journals := Eq

/-- All that is done to scopes respects the pairing. A new scope is settled with its counterpart, so
that names may be declared in both. -/
theorem collapseCoupling_lawful : collapseCoupling.Lawful where
  refl _ := ⟨id, id⟩
  trans h h' := ⟨h'.settled ∘ h.settled, h'.pad ∘ h.pad⟩
  scope h hscope := Pairing.Le.scope h hscope
  settled h hsettled := Pairing.Le.settled h hsettled
  of_settled h := .inl h
  note := by
    rintro j j' record rfl
    rfl
  get name hs hscope := Scopes.Collapsed.get hs name hscope
  resolve name hs hscope := Scopes.Collapsed.resolve hs name hscope
  assign name hs hsettled hv :=
    Scopes.Collapsed.modify hs hsettled (fun _ => rfl) (fun _ => rfl)
      fun _ _ hpaired => hpaired.assign name hv
  define name hs hsettled hv :=
    Scopes.Collapsed.modify hs hsettled (fun c => c.parent_define name _)
      (fun c => c.parent_define name _) fun _ _ hpaired => hpaired.define name hv
  openScope hs hscope :=
    ⟨_, Pairing.le_settle, .inr ⟨rfl, rfl⟩, Scopes.Collapsed.openScope hs hscope⟩

/-- A value that remembers a scope that exists corresponds to itself if all such scopes do. -/
theorem Value.Fits.coupled {K : Symbol → Prop} {count : Nat} {v : Value} (h : v.Fits K count)
    {S : ScopeId → ScopeId → Prop} (hS : ∀ c, c < count → S c c) : v.Coupled S v := by
  cases v with
  | callable f =>
      obtain ⟨identity, code⟩ := f
      cases code with
      | native => exact .native
      | user decl closure => exact .user (hS closure h.1)
  | nil | bool | number | string => exact .plain fun _ hf => nomatch hf

/-- A machine whose scopes are in order is coupled with itself. -/
theorem Machine.WellFormed.collapsed {m : Machine} (hm : m.WellFormed) :
    m.Coupled collapseCoupling (.identity m.scopes.count) m.current m.current m := by
  refine ⟨.inl ⟨rfl, hm.current⟩, rfl, m.scopes, m.journal, ?_, rfl, rfl⟩
  constructor
  · exact hm.nested
  · exact hm.nested
  · rintro i i' j' ⟨rfl, -⟩ ⟨rfl, -⟩
    rfl
  · rintro i j i' ⟨rfl, -⟩ ⟨rfl, -⟩
    rfl
  · exact fun _ hpad => hpad
  · rintro i i' ⟨rfl, hi⟩
    have hcell : m.scopes.at? i = some m.scopes.cells[i] := Array.getElem?_eq_getElem hi
    refine ⟨_, _, hcell, hcell, ?_, ?_⟩
    · cases hp : m.scopes.cells[i].parent with
      | none => exact .none
      | some p =>
          have hlt : p < i := hm.nested i _ hcell p hp
          exact .some (.inl ⟨rfl, Nat.lt_trans hlt hi⟩)
    · -- What a scope holds remembers scopes that exist.
      refine List.forall₂_same.2 fun b hb => ⟨rfl, ?_⟩
      exact (hm.holds i _ hcell b hb).2.coupled fun c hc => .inl ⟨rfl, hc⟩
  · exact fun hpad => nomatch hpad

namespace Machine.Coupled

variable {w : Pairing} {i i' : ScopeId} {m m' : Machine}

/-- Machines in scopes of the same number differ in nothing but the store. -/
theorem eq_but_scopes (h : m.Coupled collapseCoupling w i i m') :
    m' = { m with scopes := m'.scopes } := by
  obtain ⟨-, rfl, scopes, journal, -, rfl, rfl⟩ := h
  rfl

/-- The second machine may go into a pad. -/
theorem pad (h : m.Coupled collapseCoupling w i i' m') :
    ∃ w₁, w.Le w₁ ∧ m.Coupled collapseCoupling w₁ i m'.scopes.count
      (m'.inside m'.current [] []) := by
  have hstores := Scopes.Collapsed.openPad h.stores h.scope
  obtain ⟨hscope, hcurrent, scopes, journal, -, hjournals, rfl⟩ := h
  exact ⟨_, Pairing.le_addPad, .inr (.inr ⟨rfl, rfl⟩), hcurrent, _, journal, hstores, hjournals,
    rfl⟩

end Machine.Coupled

/-- The second run may come back from a pad by itself. -/
theorem Outcome.Coupled.enter_right {α : Type} {w : Pairing} {i i' j' : ScopeId}
    {A : Pairing → α → α → Prop} {x x' : Outcome α}
    (hx : x.Coupled collapseCoupling w i j' A x') (hscope : w.Scope i i') :
    x.Coupled collapseCoupling w i i' A (x'.mapMachine (·.enter i')) := by
  have hback {w₁ : Pairing} {m m' : Machine} (hle : w.Le w₁)
      (hm : m.Coupled collapseCoupling w₁ i j' m') :
      m.Coupled collapseCoupling w₁ i i' (m'.enter i') := by
    obtain ⟨-, rfl, scopes, journal, hstores, hjournals, rfl⟩ := hm
    exact ⟨hle.scope hscope, rfl, scopes, journal, hstores, hjournals, rfl⟩
  cases hx with
  | done hle hv hm => exact .done hle hv (hback hle hm)
  | failed hle hm => exact .failed hle (hback hle hm)
  | starved => exact .starved

end Scriptlet
