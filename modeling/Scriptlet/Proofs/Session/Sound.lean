import Scriptlet.Proofs.Run.Sound
import Scriptlet.Proofs.Session.Steps

/-!
# `Scriptlet.Proofs.Session.Sound`: the scopes of a session are in order

Whatever a session was asked, the scopes of its machine are in order between two steps:
parents are older than the scopes in them, and functions remember scopes that exist
(`Reachable.wellFormed`).
-/

set_option autoImplicit false

namespace Scriptlet

namespace Session

/-- Making a native function known keeps the scopes in order, since it remembers no scope. -/
theorem wellFormed_defineNative {s : Session} (h : s.machine.WellFormed) (name : String)
    (arity : Nat) (op : Native) : (s.defineNative name arity op).machine.WellFormed where
  nested := h.nested.define _ _ _
  current := by simpa [defineNative, Machine.note, Machine.makeCallable] using h.current
  globals := by simpa [defineNative, Machine.note, Machine.makeCallable] using h.globals
  holds := by
    -- A native function remembers no scope.
    have hfits : Value.Fits (fun _ => True) s.machine.scopes.count
        (.callable ⟨s.machine.identities, .native name arity op⟩) := trivial
    simpa [defineNative, Machine.note, Machine.makeCallable] using
      h.holds.define s.machine.globals trivial hfits

/-- A run leaves the scopes in order, however it ends. -/
theorem wellFormed_eval {s : Session} (h : s.machine.WellFormed) (n : Nat) (source : String) :
    (s.eval n source).2.machine.WellFormed := by
  have hanalysed : (s.analysed (Analysis.ofSource source s.lexicon)).machine.WellFormed :=
    h.of_eq rfl rfl rfl
  by_cases herrors : (Analysis.ofSource source s.lexicon).errors = []
  · rw [eval_accepted n herrors]
    generalize Analysis.ofSource source s.lexicon = a at hanalysed
    have hnames : ∀ stmt ∈ a.program, ∀ name ∈ stmt.names, True := fun _ _ _ _ => trivial
    have hkeeps := Upkeep.runProgram_keeps (soundUpkeep_lawful _) n hnames hanalysed
    -- However the run ends, the machine is sound where it ends.
    cases hrun : runProgram n a.program (s.analysed a).machine with
    | done _ m =>
        rw [hrun] at hkeeps
        exact hkeeps.1.sound.note _
    | failed _ m =>
        rw [hrun] at hkeeps
        exact hkeeps.sound
    | starved => exact hanalysed
  · rw [eval_rejected n herrors]
    exact hanalysed

/-- Every step leaves the scopes in order. -/
theorem wellFormed_act {s : Session} (h : s.machine.WellFormed) (n : Nat) (step : Step) :
    (s.act n step).2.machine.WellFormed := by
  cases step with
  | eval source => exact wellFormed_eval h n source
  | reader source =>
      show (s.evalReader n source).2.machine.WellFormed
      unfold evalReader
      split
      · exact wellFormed_eval h n _
      · exact h
  | seed seed => exact h.of_eq rfl rfl rfl
  | native name arity op => exact wellFormed_defineNative h name arity op
  | debug => exact h

/-- So does taking out output and journal. -/
theorem wellFormed_emptied {s : Session} (h : s.machine.WellFormed) :
    s.emptied.machine.WellFormed :=
  h.of_eq rfl rfl rfl

/-- The scopes of every session that can be reached are in order. -/
theorem Reachable.wellFormed {s : Session} (h : Reachable s) : s.machine.WellFormed := by
  induction h with
  | start tag input output generator clock =>
      refine wellFormed_emptied (start_induction (motive := fun s => s.machine.WellFormed)
        (.new tag) input output generator clock ?_ ?_)
      · exact Machine.sound_blank _ _ _ _ _
      · exact fun s name arity op hs => wellFormed_defineNative hs name arity op
  | perform n step _ ih => exact wellFormed_emptied (wellFormed_act ih n step)

end Session

end Scriptlet
