import Scriptlet.Proofs.Parser.Shape
import Scriptlet.Proofs.Run.Collapse
import Scriptlet.Proofs.Run.Place
import Scriptlet.Proofs.Run.Supply
import Scriptlet.Proofs.Session.Sound
import Scriptlet.Run.SplitMix

/-!
# `Scriptlet.Proofs.Run.ForLoop`: what a `for` loop does

A `for` loop has no tree of its own. `Stmt.ofFor` makes a `while` loop of it, and puts body and
increment into a block of their own. `execFor` says directly what a `for` loop does, and the two
come to the same.

There are two steps. First the statements are taken apart (`lowered_below`, `below_lowered`):
they run the same rounds, but body and increment of each round run in a scope of their own.
Then this scope is removed (`execFor_coupled`). The body declares nothing in it, since it is a
statement and no declaration (`Grammar.Statement.quiet`), so it is a pad in the sense of
`Scriptlet.Proofs.Run.Collapse`.

* `for_loop_lowered`: the statement for all loops with a body that the grammar admits.
-/

set_option autoImplicit false

namespace Scriptlet

/-! ### The direct loop -/

/-- Whether there is another round. A missing condition always holds. -/
def conditionHolds (n : Nat) (condition : Option Expr) (m : Machine) : Outcome Bool :=
  match condition with
  | none => .done true m
  | some c => (eval n c m).andThen fun v m => .done v.isTruthy m

/-- One round: the body and, only if it ended normally, the increment. -/
def execRound (increment : Option Expr) (body : Stmt) (n : Nat) (m : Machine) : Outcome Flow :=
  (exec n body m).whenNormal fun m =>
    match increment with
    | none => .done .normal m
    | some e => (eval n e m).andThen fun _ m => .done .normal m

/-- One round after the other, as long as the condition holds before it. -/
def execRounds (round : Nat → Machine → Outcome Flow) (condition : Option Expr) :
    Nat → Machine → Outcome Flow
  | 0, _ => .starved
  | n + 1, m =>
    (conditionHolds n condition m).andThen fun another m =>
      if another then (round n m).whenNormal (execRounds round condition n)
      else .done .normal m

/-- The initializer in a scope of its own, and a loop behind it in the same scope. Without an
initializer there is no such scope. -/
def withInitializer (init : Option Stmt) (loop : Nat → Machine → Outcome Flow) (n : Nat)
    (m : Machine) : Outcome Flow :=
  match init with
  | none => loop n m
  | some first =>
    ((exec n first (m.inside m.current [] [])).whenNormal (loop n)).mapMachine
      (·.enter m.current)

/-- What a `for` loop does. -/
def execFor (init : Option Stmt) (condition increment : Option Expr) (body : Stmt) :
    Nat → Machine → Outcome Flow :=
  withInitializer init (execRounds (execRound increment body) condition)

/-! ### The statements that a loop stands for -/

/-- One round with its own scope around it, which it has if there is an increment. -/
def execBlockRound (increment : Option Expr) (body : Stmt) (n : Nat) (m : Machine) :
    Outcome Flow :=
  match increment with
  | none => execRound none body n m
  | some e =>
    (execRound (some e) body n (m.inside m.current [] [])).mapMachine (·.enter m.current)

/-- A `for` loop with a scope for each round. -/
def execLowered (init : Option Stmt) (condition increment : Option Expr) (body : Stmt) :
    Nat → Machine → Outcome Flow :=
  withInitializer init (execRounds (execBlockRound increment body) condition)

open Outcome

/-- The statements of a block of two, one after the other. -/
theorem exec_pair (n : Nat) (s t : Stmt) (m : Machine) :
    exec (n + 5) (.block [s, t]) m
      = ((exec (n + 2) s (m.inside m.current [] [])).whenNormal (exec (n + 1) t)).mapMachine
          (·.enter m.current) := by
  have hsecond : execAll (n + 2) [t] = exec (n + 1) t := by
    funext m
    exact whenNormal_done (exec (n + 1) t m)
  show ((exec (n + 2) s (m.inside m.current [] [])).whenNormal (execAll (n + 2) [t])).mapMachine
    _ = _
  rw [hsecond]

/-- A row of one statement does no more than the statement. -/
theorem execAll_single_below (n : Nat) (s : Stmt) (m : Machine) :
    (execAll n [s] m).Below (exec n s m) := by
  cases n with
  | zero => exact .inl rfl
  | succ n =>
      have hrow : execAll (n + 1) [s] m = (exec n s m).whenNormal (execAll n []) := rfl
      cases n with
      | zero => exact .inl rfl
      | succ n =>
          have hdone : execAll (n + 1) [] = .done .normal := rfl
          rw [hrow, hdone, whenNormal_done]
          exact exec_below (n + 1) s m

/-- A block of two does no more than its statements do with the same supply. -/
theorem exec_pair_below (n : Nat) (s t : Stmt) (m : Machine) :
    (exec n (.block [s, t]) m).Below
      (((exec n s (m.inside m.current [] [])).whenNormal (exec n t)).mapMachine
        (·.enter m.current)) := by
  rcases n with _ | _ | _ | n
  -- Three steps lead to the first statement.
  · exact .inl rfl
  · exact .inl rfl
  · exact .inl rfl
  · refine below_mapMachine _ (below_whenNormal ?_ fun m₁ => ?_)
    · exact below_of_le (fun k => exec_below k s _) (Nat.le_add_right n 3)
    · refine (execAll_single_below n t m₁).trans ?_
      exact below_of_le (fun k => exec_below k t m₁) (Nat.le_add_right n 3)

/-- The statement that a round stands for. -/
def roundTree (increment : Option Expr) (body : Stmt) : Stmt :=
  match increment with
  | some e => .block [body, .expression e]
  | none => body

/-- The condition that a loop has in its tree. -/
def conditionTree (condition : Option Expr) : Expr := condition.getD (.literal (.bool true))

/-- A loop in its tree makes the same test before each round. -/
theorem repeatWhile_succ (n : Nat) (c : Expr) (body : Stmt) (m : Machine) :
    repeatWhile (n + 1) c body m
      = (conditionHolds n (some c) m).andThen fun another m =>
          if another then (exec n body m).whenNormal (repeatWhile n c body)
          else .done .normal m := by
  show (eval n c m).andThen _ = ((eval n c m).andThen _).andThen _
  cases eval n c m <;> rfl

/-- The test of a loop, made by the condition in its tree. A constant takes a step to be
evaluated. -/
theorem conditionHolds_below {n k : Nat} (h : n ≤ k) (condition : Option Expr) (m : Machine) :
    (conditionHolds n condition m).Below (conditionHolds (k + 1) (some (conditionTree condition)) m)
    := by
  cases condition with
  | none => exact .refl _
  | some c =>
      refine below_andThen ?_ fun _ _ => .refl _
      exact below_of_le (fun k => eval_below k c m) (Nat.le_succ_of_le h)

/-- The condition in its tree does no more than the test. -/
theorem conditionHolds_tree_below (n : Nat) (condition : Option Expr) (m : Machine) :
    (conditionHolds n (some (conditionTree condition)) m).Below
      (conditionHolds n condition m) := by
  cases condition with
  | none =>
      cases n with
      | zero => exact .inl rfl
      | succ n => exact .refl _
  | some c => exact .refl _

/-! ### Rounds with a scope of their own -/

/-- A round with its own scope is the statement that it stands for, with some steps more. -/
theorem execBlockRound_below (increment : Option Expr) (body : Stmt) (n : Nat) (m : Machine) :
    (execBlockRound increment body n m).Below (exec (n + 5) (roundTree increment body) m) := by
  cases increment with
  | none =>
      show ((exec n body m).whenNormal (.done .normal)).Below (exec (n + 5) body m)
      rw [whenNormal_done]
      exact below_of_le (fun k => exec_below k body m) (Nat.le_add_right n 5)
  | some e =>
      show Outcome.Below _ (exec (n + 5) (.block [body, .expression e]) m)
      rw [exec_pair]
      refine below_mapMachine _ (below_whenNormal ?_ fun m₁ => .refl _)
      exact below_of_le (fun k => exec_below k body _) (Nat.le_add_right n 2)

/-- That statement does no more than the round. -/
theorem roundTree_below (increment : Option Expr) (body : Stmt) (n : Nat) (m : Machine) :
    (exec n (roundTree increment body) m).Below (execBlockRound increment body n m) := by
  cases increment with
  | none =>
      show (exec n body m).Below ((exec n body m).whenNormal (.done .normal))
      rw [whenNormal_done]
      exact .refl _
  | some e =>
      refine (exec_pair_below n body (.expression e) m).trans ?_
      refine below_mapMachine _ (below_whenNormal (.refl _) fun m₁ => ?_)
      cases n with
      | zero => exact .inl rfl
      | succ n => exact below_andThen (eval_below n e m₁) fun _ _ => .refl _

/-- The rounds are those of the loop in its tree, with some steps more. Each round of both takes one
step off the supply. -/
theorem execRounds_below (increment : Option Expr) (body : Stmt) (condition : Option Expr)
    (n : Nat) (m : Machine) :
    (execRounds (execBlockRound increment body) condition n m).Below
      (repeatWhile (n + 5) (conditionTree condition) (roundTree increment body) m) := by
  induction n generalizing m with
  | zero => exact .inl rfl
  | succ n ih =>
      rw [show n + 1 + 5 = n + 5 + 1 by omega, repeatWhile_succ]
      refine below_andThen (conditionHolds_below (by omega) condition m) fun another m₁ => ?_
      split
      · exact below_whenNormal (execBlockRound_below increment body n m₁) ih
      · exact .refl _

/-- The loop in its tree does no more than the rounds. -/
theorem repeatWhile_tree_below (increment : Option Expr) (body : Stmt)
    (condition : Option Expr) (n : Nat) (m : Machine) :
    (repeatWhile n (conditionTree condition) (roundTree increment body) m).Below
      (execRounds (execBlockRound increment body) condition n m) := by
  induction n generalizing m with
  | zero => exact .inl rfl
  | succ n ih =>
      rw [repeatWhile_succ]
      refine below_andThen (conditionHolds_tree_below n condition m) fun another m₁ => ?_
      split
      · exact below_whenNormal (roundTree_below increment body n m₁) ih
      · exact .refl _

section

variable (init : Option Stmt) (condition increment : Option Expr) (body : Stmt) (n : Nat)
  (m : Machine)

/-- With ten more steps the statements do all that the loop does. -/
theorem below_lowered : (execLowered init condition increment body n m).Below
    (exec (n + 10) (.ofFor init condition increment body) m) := by
  have hrounds := execRounds_below increment body condition n
  cases init with
  | none =>
      show Outcome.Below _
        (repeatWhile (n + 9) (conditionTree condition) (roundTree increment body) m)
      exact (hrounds m).trans (below_of_le (fun k => repeatWhile_below k _ _ m) (by omega))
  | some first =>
      show Outcome.Below _ (exec (n + 10)
        (.block [first, .loop (conditionTree condition) (roundTree increment body)]) m)
      rw [exec_pair]
      refine below_mapMachine _ (below_whenNormal ?_ hrounds)
      exact below_of_le (fun k => exec_below k first _) (by omega)

/-- The statements do no more than the loop. -/
theorem lowered_below : (exec n (.ofFor init condition increment body) m).Below
    (execLowered init condition increment body n m) := by
  have hrounds := repeatWhile_tree_below increment body condition
  have hloop (m : Machine) :
      (exec n (.loop (conditionTree condition) (roundTree increment body)) m).Below
        (execRounds (execBlockRound increment body) condition n m) := by
    cases n with
    | zero => exact .inl rfl
    | succ n =>
        refine Below.trans ?_ (hrounds (n + 1) m)
        exact repeatWhile_below n _ _ m
  cases init with
  | none => exact hloop m
  | some first =>
      refine (exec_pair_below n first _ m).trans ?_
      exact below_mapMachine _ (below_whenNormal (.refl _) hloop)

end

/-! ### Rounds without a scope of their own -/

/-- What stands where a statement may declares nothing in the scope that it runs in. -/
theorem Stmt.IsStatement.quiet : ∀ {s : Stmt}, s.IsStatement → s.Quiet
  | _, .expression _ => .expression
  | _, .block _ => .block
  | _, .ifThen _ hyes => .branchOnly hyes.quiet
  | _, .ifElse _ hyes _ hno => .branch hyes.quiet hno.quiet
  | _, .loop _ hbody => .loop hbody.quiet
  | _, .giveBack _ _ => .giveBack

/-- A statement of the grammar declares nothing in the scope that it runs in. -/
theorem Grammar.Statement.quiet {ts rest : List Token} {s : Stmt}
    (h : Grammar.Statement ts rest s) : s.Quiet :=
  h.isStatement.1.quiet

namespace Outcome.Coupled

/-- The rule for a statement behind another one. -/
theorem whenNormal {C : Coupling} (hC : C.Lawful) {w : C.World} {i i' : ScopeId}
    {x x' : Outcome Flow} {f f' : Machine → Outcome Flow} (hx : x.Coupled C w i i' C.Flow x')
    (hf : ∀ w₁ m m', C.Le w w₁ → m.Coupled C w₁ i i' m' →
      (f m).Coupled C w₁ i i' C.Flow (f' m')) :
    (x.whenNormal f).Coupled C w i i' C.Flow (x'.whenNormal f') := by
  refine hx.andThen hC fun w₁ flow flow' m m' hle hflow hm => ?_
  cases hflow with
  | normal => exact hf w₁ m m' hle hm
  | returned hv => exact .result hC (.returned hv) hm

end Outcome.Coupled

section

variable {C : Coupling} {w : C.World} {i i' : ScopeId} {m m' : Machine}

/-- The test of a loop is the same on coupled machines. -/
theorem conditionHolds_coupled (hC : C.Lawful) (n : Nat) (condition : Option Expr)
    (hm : m.Coupled C w i i' m') : (conditionHolds n condition m).Coupled C w i i' (fun _ => Eq)
      (conditionHolds n condition m') := by
  cases condition with
  | none => exact .result hC rfl hm
  | some c =>
      refine (Coupling.eval_coupled hC n hm).andThen hC fun w₁ v v' m m' _ hv hm => ?_
      exact .result hC (Value.isTruthy_eq_of_look ((Value.resemblance_coupled _).look hv)) hm

/-- A round without a scope of its own, run on coupled machines. It asks that the body declares
nothing. -/
theorem execRound_coupled (hC : C.Lawful) (n : Nat) (increment : Option Expr) {body : Stmt}
    (hbody : body.Quiet) (hm : m.Coupled C w i i' m') :
    (execRound increment body n m).Coupled C w i i' C.Flow (execRound increment body n m') := by
  refine (Coupling.exec_coupled hC n (.inl hbody) hm).whenNormal hC fun w₁ m m' _ hm => ?_
  cases increment with
  | none => exact .result hC .normal hm
  | some e =>
      refine (Coupling.eval_coupled hC n hm).andThen hC fun w₂ v v' m m' _ _ hm => ?_
      exact .result hC .normal hm

end

section

variable {w : Pairing} {i i' : ScopeId} {m m' : Machine} {body : Stmt}

/-- The scope of a round is a pad. -/
theorem execBlockRound_coupled (n : Nat) (increment : Option Expr) (hbody : body.Quiet)
    (hm : m.Coupled collapseCoupling w i i' m') :
    (execRound increment body n m).Coupled collapseCoupling w i i' collapseCoupling.Flow
      (execBlockRound increment body n m') := by
  have hC := collapseCoupling_lawful
  cases increment with
  | none => exact execRound_coupled hC n none hbody hm
  | some e =>
      obtain ⟨w₁, hle, hpad⟩ := hm.pad
      have hround := execRound_coupled hC n (some e) hbody hpad
      have hcurrent : m'.current = i' := hm.current_eq'
      show Outcome.Coupled _ _ _ _ _ _ ((execRound (some e) body n _).mapMachine
        (·.enter m'.current))
      rw [hcurrent]
      rw [hcurrent] at hround
      exact (hround.enter_right (hle.scope hm.scope)).later hC hle

/-- Rounds without scopes of their own, beside rounds with them. The scope of each round is left
before the next one. -/
theorem execRounds_coupled (n : Nat) (condition increment : Option Expr) (hbody : body.Quiet)
    (hm : m.Coupled collapseCoupling w i i' m') :
    (execRounds (execRound increment body) condition n m).Coupled collapseCoupling w i i'
      collapseCoupling.Flow (execRounds (execBlockRound increment body) condition n m') := by
  have hC := collapseCoupling_lawful
  induction n generalizing w m m' with
  | zero => exact .starved
  | succ n ih =>
      refine (conditionHolds_coupled hC n condition hm).andThen hC ?_
      rintro w₁ another _ m m' _ rfl hm
      split
      · refine (execBlockRound_coupled n increment hbody hm).whenNormal hC ?_
        exact fun w₂ m m' _ hm => ih hm
      · exact .result hC .normal hm

/-- Loops with and without a scope for each round end in the same way. -/
theorem execFor_coupled (n : Nat) (init : Option Stmt) (condition increment : Option Expr)
    (hbody : body.Quiet) (hm : m.Coupled collapseCoupling w i i' m') :
    (execFor init condition increment body n m).Coupled collapseCoupling w i i'
      collapseCoupling.Flow (execLowered init condition increment body n m') := by
  have hC := collapseCoupling_lawful
  cases init with
  | none => exact execRounds_coupled n condition increment hbody hm
  | some first =>
      have hcurrent : w.Scope m.current m'.current := by
        rw [hm.current_eq, hm.current_eq']
        exact hm.scope
      -- The initializer declares its name in a scope that both runs open, so this scope is settled.
      obtain ⟨w₁, j, j', hle, hsettled, hinside⟩ := hm.inside hC hcurrent [] .nil
      have hloop : ((exec n first (m.inside m.current [] [])).whenNormal
          (execRounds (execRound increment body) condition n)).Coupled collapseCoupling w₁ j j'
          collapseCoupling.Flow ((exec n first (m'.inside m'.current [] [])).whenNormal
          (execRounds (execBlockRound increment body) condition n)) := by
        refine (Coupling.exec_coupled hC n (.inr hsettled) hinside).whenNormal hC ?_
        exact fun w₂ m m' _ hm => execRounds_coupled n condition increment hbody hm
      have hback := (hloop.enter hC (hC.scope hle hm.scope)).later hC hle
      rw [← hm.current_eq, ← hm.current_eq'] at hback ⊢
      exact hback

end

namespace Outcome.Coupled

variable {α : Type} {C : Coupling} {w : C.World} {i i' : ScopeId}
  {A : C.World → α → α → Prop} {x x' : Outcome α}

/-- Only a starved run is coupled with a starved run. -/
theorem eq_starved (hx : x.Coupled C w i i' A .starved) : x = .starved := by
  cases hx
  rfl

/-- Runs that both end, end in coupled machines. -/
theorem machines (hx : x.Coupled C w i i' A x') {m m' : Machine} (hm : m ∈ x.machine?)
    (hm' : m' ∈ x'.machine?) : ∃ w₁, C.Le w w₁ ∧ m.Coupled C w₁ i i' m' := by
  cases hx with
  | done hle _ hcoupled =>
      cases hm
      cases hm'
      exact ⟨_, hle, hcoupled⟩
  | failed hle hcoupled =>
      cases hm
      cases hm'
      exact ⟨_, hle, hcoupled⟩
  | starved => cases hm

end Outcome.Coupled

/-- **Lowering a `for` loop preserves its meaning.** Take a machine whose scopes are in order,
and a loop with or without initializer, condition and increment, whose body is a statement of
the grammar.

Whenever the direct loop comes to an end, so do the statements that it stands for, and the other
way round: with the same result or the same error, and in machines that are the same but for
their scopes. The scopes that were there before bind the same names to the same values, up to
the scopes that functions remember. And nothing that runs afterwards can tell the two machines
apart. -/
theorem for_loop_lowered {m : Machine} (hm : m.WellFormed) {ts rest : List Token} {body : Stmt}
    (hbody : Grammar.Statement ts rest body) (init : Option Stmt)
    (condition increment : Option Expr) (n : Nat) :
    let before := Pairing.identity m.scopes.count
    let Same := Outcome.Coupled collapseCoupling before m.current m.current collapseCoupling.Flow
    let direct (n : Nat) := execFor init condition increment body n m
    let lowered (n : Nat) := exec n (.ofFor init condition increment body) m
    (direct n = .starved ∨ Same (direct n) (lowered (n + 10))) ∧
    (lowered n = .starved ∨ Same (direct n) (lowered n)) ∧
    ∀ k, ∀ m₁ ∈ (direct n).machine?, ∀ m₁' ∈ (lowered k).machine?, ∃ w, before.Le w ∧
      m₁' = { m₁ with scopes := m₁'.scopes } ∧
      (∀ i < m.scopes.count, ∃ c c', m₁.scopes.at? i = some c ∧ m₁'.scopes.at? i = some c' ∧
        c.Paired w.Scope c') ∧
      ∀ j program, (runProgram j program m₁).Coupled collapseCoupling w m.current m.current
        (fun _ => Eq) (runProgram j program m₁') := by
  intro before Same direct lowered
  have hC := collapseCoupling_lawful
  have hsame : Same (direct n) (execLowered init condition increment body n m) :=
    execFor_coupled n init condition increment hbody.quiet hm.collapsed
  have hforth : direct n = .starved ∨ Same (direct n) (lowered (n + 10)) := by
    rcases below_lowered init condition increment body n m with hstarved | heq
    · rw [hstarved] at hsame
      exact .inl hsame.eq_starved
    · exact .inr (show Same _ (exec (n + 10) _ m) from heq ▸ hsame)
  have hback : lowered n = .starved ∨ Same (direct n) (lowered n) := by
    rcases lowered_below init condition increment body n m with hstarved | heq
    · exact .inl hstarved
    · exact .inr (show Same _ (exec n _ m) from heq.symm ▸ hsame)
  refine ⟨hforth, hback, fun k m₁ hm₁ m₁' hm₁' => ?_⟩
  -- Both come to an end, so the supplies do not matter.
  have hdirect : direct n ≠ .starved := by
    intro hstarved
    rw [hstarved] at hm₁
    cases hm₁
  have hlowered : lowered k ≠ .starved := by
    intro hstarved
    rw [hstarved] at hm₁'
    cases hm₁'
  have hends := hforth.resolve_left hdirect
  have hlarge : lowered (n + 10) ≠ .starved := by
    intro hstarved
    rw [hstarved] at hends
    exact hdirect hends.eq_starved
  have heq : lowered (n + 10) = lowered k :=
    Outcome.eq_of_below (fun j => exec_below j _ m) hlarge hlowered
  rw [heq] at hends
  obtain ⟨w, hle, hcoupled⟩ := hends.machines hm₁ hm₁'
  have hsettled {i : ScopeId} (hi : i < m.scopes.count) : w.settled i i :=
    Pairing.Le.settled hle ⟨rfl, hi⟩
  refine ⟨w, hle, hcoupled.eq_but_scopes, fun i hi => ?_, fun j program => ?_⟩
  · exact Scopes.Collapsed.cell hcoupled.stores (hsettled hi)
  · exact Coupling.runProgram_coupled hC j (hsettled hm.current) hcoupled

/-- The loop `for (var i = 0; i < 2; i = i + 1) print(i);` in a new session. The statements that
it stands for open two scopes more, one for each round. -/
theorem for_loop_lowered_print :
    let s := (Session.start (.new 0) (.ofBytes [] none) (.empty none)
      (.splitMix 0) (.steady (.ok 0))).emptied
    let token (kind : Kind) (name : String) : Token := ⟨kind, (s.lexicon.intern name).1, none, 1⟩
    let i := token .identifier "i"
    let print := token .identifier "print"
    let closing := token (.mark .rightParen) ")"
    let number (x : Float) : Expr := .literal (.number x)
    let init : Stmt := .declare i (some (number 0))
    let condition : Expr := .binary (.get i) (token (.mark .less) "<") (number 2)
    let increment : Expr := .set i (.binary (.get i) (token (.mark .plus) "+") (number 1))
    let body : Stmt := .expression (.call (.get print) closing [.get i])
    ∃ m₁ m₁', (execFor init condition increment body 20 s.machine).machine? = some m₁ ∧
      (exec 30 (.ofFor init condition increment body) s.machine).machine? = some m₁' ∧
      m₁.output.bytes.toList = "01".toUTF8.toList ∧ m₁.scopes.count = 2 ∧
      m₁'.scopes.count = 4 ∧ m₁' = { m₁ with scopes := m₁'.scopes } := by
  intro s token i print closing number init condition increment body
  have hm : s.machine.WellFormed := (Session.Reachable.start 0 _ _ _ _).wellFormed
  have hname (t : Token) (ht : t.kind = .identifier) : Grammar.Derives .call [t] (.get t) :=
    .lift (.name ht)
  have hlift {ts : List Token} {e : Expr} (h : Grammar.Derives .call ts e) :
      Grammar.Derives .assignment ts e :=
    .lift (.lift (.lift (.lift (.lift (.lift (.lift (.lift h)))))))
  have hcall : Grammar.Derives .call
      ([print] ++ token (.mark .leftParen) "(" :: ([i] ++ [closing]))
      (.call (.get print) closing [.get i]) :=
    @Grammar.Derives.call _ _ [print] [i] _ [([i], .get i)] (hname print rfl) rfl (.one [i])
      (by simpa using hlift (hname i rfl)) (by simp) rfl
  have hbody : Grammar.Statement _ [] body :=
    .expression (hlift hcall) (rfl : (token (.mark .semicolon) ";").kind = .mark .semicolon)
  -- Both loops are fixed, so they are evaluated, and the theorem says how they belong together.
  have hdirect : ((execFor init condition increment body 20 s.machine).machine?.map fun m =>
      (m.output.bytes.toList, m.scopes.count)) = some ("01".toUTF8.toList, 2) := by
    decide +kernel
  have hlowered : ((exec 30 (.ofFor init condition increment body) s.machine).machine?.map
      fun m => m.scopes.count) = some 4 := by
    decide +kernel
  obtain ⟨m₁, hm₁, hseen⟩ := Option.map_eq_some_iff.1 hdirect
  obtain ⟨m₁', hm₁', hcount⟩ := Option.map_eq_some_iff.1 hlowered
  obtain ⟨w, -, heq, -⟩ :=
    (for_loop_lowered hm hbody init condition increment 20).2.2 30 m₁ hm₁ m₁' hm₁'
  exact ⟨m₁, m₁', hm₁, hm₁', (Prod.mk.inj hseen).1, (Prod.mk.inj hseen).2, hcount, heq⟩

end Scriptlet
