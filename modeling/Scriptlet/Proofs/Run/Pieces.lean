import Scriptlet.Proofs.Run.Coupling
import Scriptlet.Proofs.Run.Supply

/-!
# `Scriptlet.Proofs.Run.Pieces`: programs in pieces

A program that is put together of two runs like the first part and, if that one ends normally,
like the second part behind it (`execAll_append`). If the first part fails or gives back a
value, nothing of the second part is run (`Outcome.Stopped.append`).

Between two parts that are run on their own, records get into the journal. They make no
difference, since no program reads the journal (`execAll_journal`). This is a coupling in which
all scopes correspond to themselves and all journals to each other.
-/

set_option autoImplicit false

namespace Scriptlet

/-! ### One part behind the other -/

namespace Outcome

/-- Going on twice is going on with both. -/
theorem whenNormal_whenNormal (x : Outcome Flow) (f g : Machine → Outcome Flow) :
    (x.whenNormal f).whenNormal g = x.whenNormal fun m => (f m).whenNormal g := by
  cases x with
  | done flow m => cases flow <;> rfl
  | failed | starved => rfl

/-- The statements failed or gave back a value, so that nothing behind them is run. -/
inductive Stopped : Outcome Flow → Prop where
  | returned (v : Value) (m : Machine) : Stopped (.done (.returned v) m)
  | failed (e : RuntimeError) (m : Machine) : Stopped (.failed e m)

/-- What was stopped did not run out of steps. -/
theorem Stopped.ne_starved {x : Outcome Flow} (h : x.Stopped) : x ≠ .starved := by
  rintro rfl
  cases h

/-- A change to the machine keeps it stopped. -/
theorem Stopped.mapMachine {x : Outcome Flow} (h : x.Stopped) (change : Machine → Machine) :
    (x.mapMachine change).Stopped := by
  cases h with
  | returned v m => exact .returned v _
  | failed e m => exact .failed e _

end Outcome

/-- The first part is run, and the second part behind it if nothing stops the first. -/
theorem execAll_append (p q : List Stmt) (k : Nat) (m : Machine) :
    execAll (p.length + k) (p ++ q) m =
      (execAll (p.length + k) p m).whenNormal (execAll k q) := by
  induction p generalizing m with
  | nil =>
      rw [List.length_nil, Nat.zero_add]
      cases k <;> rfl
  | cons s p ih =>
      rw [List.length_cons, Nat.add_right_comm]
      show (exec (p.length + k) s m).whenNormal (execAll (p.length + k) (p ++ q)) =
        ((exec (p.length + k) s m).whenNormal (execAll (p.length + k) p)).whenNormal (execAll k q)
      rw [Outcome.whenNormal_whenNormal]
      exact congrArg (Outcome.whenNormal _) (funext ih)

/-- Where the first part stops, the whole program stops. -/
theorem Outcome.Stopped.append {n : Nat} {p : List Stmt} {m : Machine}
    (h : (execAll n p m).Stopped) (q : List Stmt) : execAll n (p ++ q) m = execAll n p m := by
  induction p generalizing n m with
  | nil => cases n <;> cases h
  | cons s p ih =>
      cases n with
      | zero => rfl
      | succ n =>
          have hrow : ∀ rest, execAll (n + 1) (s :: rest) m =
            (exec n s m).whenNormal (execAll n rest) := fun _ => rfl
          rw [List.cons_append, hrow, hrow]
          rw [hrow] at h
          cases hs : exec n s m with
          | done flow m₁ =>
              rw [hs] at h
              cases flow with
              | normal => exact ih h
              | returned v => rfl
          | failed | starved => rfl

/-! ### Nothing depends on the journal -/

/-- The same machine with another journal. -/
def Machine.withJournal (m : Machine) (journal : Array Record) : Machine := { m with journal }

/-- All scopes correspond to themselves, and all journals to each other. -/
def journalCoupling : Coupling where
  World := Unit
  Le _ _ := True
  Scope _ := Eq
  Settled _ := Eq
  Stores _ := Eq
  Journals _ _ := True

/-- Every value corresponds to itself. -/
theorem Value.coupled_refl (v : Value) : v.Coupled Eq v := by
  cases v with
  | callable f =>
      obtain ⟨identity, code⟩ := f
      cases code with
      | native => exact .native
      | user => exact .user rfl
  | _ => exact .plain (by simp)

/-- Values whose scopes correspond to themselves are the same. -/
theorem Value.Coupled.eq {v v' : Value} (h : v.Coupled Eq v') : v = v' := by
  cases h with
  | user hclosure => rw [hclosure]
  | plain | native => rfl

/-- Journals are never looked at, so each small step keeps everything else the same. -/
theorem journalCoupling_lawful : journalCoupling.Lawful where
  refl _ := trivial
  trans _ _ := trivial
  scope _ h := h
  settled _ h := h
  of_settled h := h
  note _ _ := trivial
  get {w s s' i i'} name hs hi := by
    cases hs
    cases hi
    cases s.get? i name with
    | none => exact .none
    | some v => exact .some v.coupled_refl
  resolve {w s s' i i'} name hs hi := by
    cases hs
    cases hi
    cases s.resolve name i with
    | none => exact .none
    | some owner => exact .some rfl
  assign name hs hi hv := by
    cases hs
    cases hi
    cases hv.eq
    rfl
  define name hs hi hv := by
    cases hs
    cases hi
    cases hv.eq
    rfl
  openScope hs hparent := by
    cases hs
    cases hparent
    exact ⟨(), trivial, rfl, rfl⟩

/-- A machine is coupled with itself with any other journal. -/
theorem Machine.withJournal_coupled (m : Machine) (journal : Array Record) :
    m.Coupled journalCoupling () m.current m.current (m.withJournal journal) :=
  ⟨rfl, rfl, m.scopes, journal, rfl, trivial, rfl⟩

/-- Machines that are coupled in one scope differ in their journals only. -/
theorem Machine.Coupled.eq_withJournal {w : journalCoupling.World} {i : ScopeId}
    {m m' : Machine} (h : m.Coupled journalCoupling w i i m') :
    ∃ journal, m' = m.withJournal journal := by
  obtain ⟨-, rfl, scopes, journal, hstores, -, rfl⟩ := h
  cases hstores
  exact ⟨journal, rfl⟩

/-- Outcomes that are coupled so are the same but for the journal. -/
theorem Outcome.Coupled.eq_withJournal {α : Type} {w : journalCoupling.World} {i : ScopeId}
    {A : journalCoupling.World → α → α → Prop} (hA : ∀ w v v', A w v v' → v = v')
    {x x' : Outcome α} (h : x.Coupled journalCoupling w i i A x') :
    ∃ journal, x' = x.mapMachine (·.withJournal journal) := by
  cases h with
  | done _ hv hm =>
      obtain ⟨journal, rfl⟩ := hm.eq_withJournal
      cases hA _ _ _ hv
      exact ⟨journal, rfl⟩
  | failed _ hm =>
      obtain ⟨journal, rfl⟩ := hm.eq_withJournal
      exact ⟨journal, rfl⟩
  | starved => exact ⟨#[], rfl⟩

/-- With another journal, statements do the same and leave another journal. -/
theorem execAll_journal (n : Nat) (body : List Stmt) (m : Machine) (journal : Array Record) :
    ∃ journal', execAll n body (m.withJournal journal) =
      (execAll n body m).mapMachine (·.withJournal journal') := by
  have hrun := Coupling.execAll_coupled journalCoupling_lawful n
    (fun (s : Stmt) (_ : s ∈ body) => .inr rfl) (m.withJournal_coupled journal)
  refine hrun.eq_withJournal fun _ flow flow' hflow => ?_
  cases hflow with
  | normal => rfl
  | returned hv => rw [hv.eq]

end Scriptlet
