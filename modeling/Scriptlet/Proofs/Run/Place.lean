import Scriptlet.Proofs.Run.Upkeep
import Scriptlet.Proofs.Session.Steps
import Scriptlet.Run.SplitMix

/-!
# `Scriptlet.Proofs.Run.Place`: programs come back to where they started

The current scope is the same before and after every evaluation and every execution that
ends, whether it is done, gives back a value, or fails at any depth. So between two steps of
a session the current scope is the outermost one.

* `placeUpkeep_lawful`: nothing that a program does moves the current scope for good.
* `current_kept`: the statement for expressions, statements, blocks, programs and sessions.
-/

set_option autoImplicit false

namespace Scriptlet

/-- The machine at the end, if running ends. -/
def Outcome.machine? {α : Type} : Outcome α → Option Machine
  | .done _ m => some m
  | .failed _ m => some m
  | .starved => none

/-- The current scope and the outermost scope are kept. -/
def placeUpkeep : Upkeep where
  Ready _ := True
  Change m m₁ := m₁.current = m.current ∧ m₁.globals = m.globals
  Holds _ _ := True
  Evals _ := True
  Runs _ := True

/-- Every small step stays in its place, and the way into a scope leads back. -/
theorem placeUpkeep_lawful : placeUpkeep.Lawful where
  refl _ := ⟨rfl, rfl⟩
  trans h h' := ⟨h'.1.trans h.1, h'.2.trans h.2⟩
  ready _ := trivial
  holds _ _ := trivial
  holds_enter _ := trivial
  parts_evals _ _ := trivial
  parts_runs _ _ := trivial
  exprs_evals _ _ := trivial
  body_runs _ _ := trivial
  note _ _ := ⟨rfl, rfl⟩
  native op args _ _ := by
    obtain ⟨input, output, generator, clock, hrun⟩ := Native.run_machine op args _
    rw [hrun]
    exact ⟨rfl, rfl⟩
  get _ _ := trivial
  assign _ _ _ _ := ⟨rfl, rfl⟩
  declare _ _ _ := ⟨rfl, rfl⟩
  function _ _ := ⟨rfl, rfl⟩
  block _ := trivial
  call _ _ _ := trivial
  -- The scope inside was left, and nothing else moves the outermost one.
  leave _ h := ⟨rfl, h.2⟩

/-- However a run ends that respects an upkeep, the machine has changed as the upkeep says. -/
theorem Upkeep.Keeps.machine? {u : Upkeep} {α : Type} {P : Machine → α → Prop} {m : Machine}
    {x : Outcome α} (h : u.Keeps P m x) : ∀ m' ∈ x.machine?, u.Change m m' := by
  intro m' hm'
  cases x with
  | done v m₁ =>
      cases hm'
      exact h.1
  | failed error m₁ =>
      cases hm'
      exact h
  | starved => cases hm'

/-- However a run ends that respects the upkeep of the place, it ends in the same place. -/
theorem placeUpkeep_machine? {α : Type} {P : Machine → α → Prop} {m : Machine}
    {x : Outcome α} (h : placeUpkeep.Keeps P m x) :
    ∀ m' ∈ x.machine?, m'.current = m.current ∧ m'.globals = m.globals :=
  h.machine?

/-- A block that runs in any scope whatever comes back to the scope before it. -/
theorem execIn_machine? (n : Nat) (scope : ScopeId) (body : List Stmt) (m : Machine) :
    ∀ m' ∈ (execIn n scope body m).machine?, m'.current = m.current := by
  intro m' hm'
  cases n with
  | zero => cases hm'
  | succ n =>
      -- Whatever the body does, the scope is set back at the end.
      rw [execIn_succ] at hm'
      cases hx : execAll n body (m.enter scope) with
      | done flow m₁ =>
          rw [hx] at hm'
          cases hm'
          rfl
      | failed error m₁ =>
          rw [hx] at hm'
          cases hm'
          rfl
      | starved =>
          rw [hx] at hm'
          cases hm'

/-- A machine in its outermost scope says so. -/
theorem Machine.description_of_top {m : Machine} (h : m.current = m.globals) :
    m.description = "Evaluator \x7b globals: " ++ toString (m.scopes.size m.globals) ++
      ", nested: false, .. \x7d" := by
  unfold description isNested
  rw [h, bne_self_eq_false, String.append_assoc, String.append_assoc]
  rfl

namespace Session

/-- The current scope of the session is the outermost one. -/
def AtTop (s : Session) : Prop := s.machine.current = s.machine.globals

/-- A native function is made known in the outermost scope, without going anywhere. -/
theorem atTop_defineNative {s : Session} (h : s.AtTop) (name : String) (arity : Nat)
    (op : Native) : (s.defineNative name arity op).AtTop := h

/-- A new session is in its outermost scope. -/
theorem atTop_start (lexicon : Lexicon) (input : Reader) (output : Sink) (generator : Generator)
    (clock : Clock) : (start lexicon input output generator clock).AtTop :=
  start_induction lexicon input output generator clock rfl
    fun _ name arity op h => atTop_defineNative h name arity op

/-- Taking out output and journal changes no place. -/
theorem atTop_emptied {s : Session} (h : s.AtTop) : s.emptied.AtTop := h

/-- A session that is asked to run a source comes back to the outermost scope. -/
theorem atTop_eval {s : Session} (h : s.AtTop) (n : Nat) (source : String) :
    (s.eval n source).2.AtTop := by
  by_cases herrors : (Analysis.ofSource source s.lexicon).errors = []
  · rw [eval_accepted n herrors]
    generalize Analysis.ofSource source s.lexicon = a
    have hkeeps : placeUpkeep.Keeps (fun _ _ => True) (s.analysed a).machine
        (runProgram n a.program (s.analysed a).machine) :=
      Upkeep.runProgram_keeps placeUpkeep_lawful n (fun _ _ => trivial) trivial
    have hplace := placeUpkeep_machine? hkeeps
    -- An error leaves the machine in the place it had before the run, as a result does.
    cases hrun : runProgram n a.program (s.analysed a).machine with
    | done _ m | failed _ m =>
        rw [hrun] at hplace
        obtain ⟨hcurrent, hglobals⟩ := hplace m rfl
        exact hcurrent.trans (h.trans hglobals.symm)
    | starved => exact h
  · rw [eval_rejected n herrors]
    exact h

/-- Whatever a session is asked, it comes back to the outermost scope. -/
theorem atTop_act {s : Session} (h : s.AtTop) (n : Nat) (step : Step) :
    (s.act n step).2.AtTop := by
  cases step with
  | eval source => exact atTop_eval h n source
  | reader source =>
      show (s.evalReader n source).2.AtTop
      unfold evalReader
      split
      · exact atTop_eval h n _
      · exact h
  | seed seed => exact h
  | native name arity op => exact atTop_defineNative h name arity op
  | debug => exact h

/-- Every session that can be reached is in its outermost scope. -/
theorem Reachable.atTop {s : Session} (h : Reachable s) : s.AtTop := by
  induction h with
  | start tag input output generator clock =>
      exact atTop_emptied (atTop_start (.new tag) input output generator clock)
  | perform n step _ ih => exact atTop_emptied (atTop_act ih n step)

end Session

/-- **The current scope is the same on every way out.** However the evaluation of an
expression, a call, a statement, a block, a row of statements or a program ends, the current
scope is the one before it. So the current scope is the outermost one in every session that
can be reached, the session shows this when it is looked at, and the next source runs
there. -/
theorem current_kept :
    (∀ (n : Nat) (m m' : Machine),
      (∀ e, m' ∈ (eval n e m).machine? → m'.current = m.current) ∧
      (∀ f paren args, m' ∈ (invoke n f paren args m).machine? → m'.current = m.current) ∧
      (∀ s, m' ∈ (exec n s m).machine? → m'.current = m.current) ∧
      (∀ scope body, m' ∈ (execIn n scope body m).machine? → m'.current = m.current) ∧
      (∀ body, m' ∈ (execAll n body m).machine? → m'.current = m.current) ∧
      (∀ program, m' ∈ (runProgram n program m).machine? → m'.current = m.current)) ∧
    ∀ s : Session, s.Reachable →
      s.machine.current = s.machine.globals ∧
      (∀ n, (s.perform n .debug).1.sight = some ("Evaluator \x7b globals: " ++
        toString (s.machine.scopes.size s.machine.globals) ++ ", nested: false, .. \x7d")) ∧
      ∀ source, (s.analysed (Analysis.ofSource source s.lexicon)).machine.current
        = s.machine.globals := by
  have hlaw := placeUpkeep_lawful
  refine ⟨fun n m m' => ⟨?_, ?_, ?_, ?_, ?_, ?_⟩, fun s hs => ⟨hs.atTop, ?_, ?_⟩⟩
  · intro e hm'
    exact (placeUpkeep_machine? (Upkeep.eval_keeps hlaw n trivial trivial) m' hm').1
  · intro f paren args hm'
    -- The upkeep asks nothing of the values.
    have hargs : ∀ v ∈ args, placeUpkeep.HoldsValue m v := by
      intro v _
      cases v <;> trivial
    exact (placeUpkeep_machine? (Upkeep.invoke_keeps hlaw n trivial hargs trivial) m' hm').1
  · intro s hm'
    exact (placeUpkeep_machine? (Upkeep.exec_keeps hlaw n trivial trivial) m' hm').1
  · intro scope body hm'
    -- Here the scope is any number, so the upkeep of runs inside new scopes does not apply.
    exact execIn_machine? n scope body m m' hm'
  · intro body hm'
    exact (placeUpkeep_machine?
      (Upkeep.execAll_keeps hlaw n (fun _ _ => trivial) trivial) m' hm').1
  · intro program hm'
    exact (placeUpkeep_machine?
      (Upkeep.runProgram_keeps hlaw n (fun _ _ => trivial) trivial) m' hm').1
  · intro n
    rw [← Machine.description_of_top hs.atTop]
    rfl
  · intro source
    rw [Session.analysed_current]
    exact hs.atTop

/-- A session in which a call printed something and then failed in a block of its body. -/
theorem current_kept_after_failure :
    let source := "fun f() \x7b \x7b print(1); x; \x7d \x7d f();"
    let s := (Session.start (.new 0) (.ofBytes [] none) (.empty none)
      (.splitMix 0) (.steady (.ok 0))).emptied
    let after := s.perform 20 (.eval source)
    after.1.output.toList = "1".toUTF8.toList ∧ after.1.verdict.isFailed = true ∧
      after.2.machine.current = after.2.machine.globals := by
  intro source s after
  refine ⟨by decide +kernel, by decide +kernel, ?_⟩
  exact (current_kept.2 _ (.perform 20 (.eval source) (.start 0 _ _ _ _))).1

end Scriptlet
