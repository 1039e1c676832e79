import Scriptlet.Run.Eval

/-!
# `Scriptlet.Proofs.Run.Supply`: more steps change nothing

A run that ended with some supply of steps ends in the same way with every larger supply.
There is one lemma for each function of the evaluator (`eval_below`, `exec_below` and the
lemmas between them), by induction on the supply.

What is run behind a statement that gave back no value is put there by `Outcome.whenNormal`.
-/

set_option autoImplicit false

namespace Scriptlet

namespace Outcome

variable {α β : Type}

/-- The outcome `y` is the outcome `x`, unless that one is starved. -/
def Below (x y : Outcome α) : Prop := x = .starved ∨ x = y

/-- An outcome is below itself. -/
theorem Below.refl (x : Outcome α) : x.Below x := .inr rfl

/-- What is below something below is below. -/
theorem Below.trans {x y z : Outcome α} (h : x.Below y) (h' : y.Below z) : x.Below z := by
  rcases h with h | rfl
  · exact .inl h
  · exact h'

/-- The rule for two steps in a row. -/
theorem below_andThen {x y : Outcome α} {f g : α → Machine → Outcome β} (h : x.Below y)
    (hf : ∀ v m, (f v m).Below (g v m)) : (x.andThen f).Below (y.andThen g) := by
  rcases h with rfl | rfl
  · exact .inl rfl
  · cases x with
    | done v m => exact hf v m
    | failed error m => exact .inr rfl
    | starved => exact .inl rfl

/-- A change to the machine at the end keeps outcomes below each other. -/
theorem below_mapMachine {x y : Outcome α} (change : Machine → Machine) (h : x.Below y) :
    (x.mapMachine change).Below (y.mapMachine change) := by
  rcases h with rfl | rfl
  · exact .inl rfl
  · exact .inr rfl

/-- Goes on behind a statement that has not given back a value. -/
def whenNormal (x : Outcome Flow) (next : Machine → Outcome Flow) : Outcome Flow :=
  x.andThen fun flow m =>
    match flow with
    | .normal => next m
    | .returned v => .done (.returned v) m

/-- Going on with nothing changes nothing. -/
theorem whenNormal_done (x : Outcome Flow) : x.whenNormal (.done .normal) = x := by
  cases x with
  | done flow m => cases flow <;> rfl
  | failed | starved => rfl

/-- The rule for statements behind others. -/
theorem below_whenNormal {x y : Outcome Flow} {f g : Machine → Outcome Flow} (h : x.Below y)
    (hf : ∀ m, (f m).Below (g m)) : (x.whenNormal f).Below (y.whenNormal g) := by
  refine below_andThen h fun flow m => ?_
  cases flow with
  | normal => exact hf m
  | returned v => exact .refl _

end Outcome

open Outcome

mutual

/-- One step more changes nothing about an expression that has come to an end. The recursion is
followed as it is, part by part. -/
theorem eval_below : ∀ n e m, (eval n e m).Below (eval (n + 1) e m)
  | 0, _, _ => .inl rfl
  | n + 1, e, m => by
    cases e with
    -- Where no part is evaluated, one step is as good as two.
    | literal | get => exact .inr rfl
    | group inner => exact eval_below n inner m
    | unary op operand => exact below_andThen (eval_below n operand m) fun _ _ => .refl _
    | binary left op right =>
        exact below_andThen (eval_below n left m) fun v m =>
          below_andThen (eval_below n right m) fun _ _ => .refl _
    | logical left op right =>
        refine below_andThen (eval_below n left m) fun v m => ?_
        split
        · exact .refl _
        · exact eval_below n right m
    | set name value => exact below_andThen (eval_below n value m) fun _ _ => .refl _
    | call callee paren args =>
        refine below_andThen (eval_below n callee m) fun v m => ?_
        refine below_andThen (evalAll_below n args m) fun vs m => ?_
        cases v with
        | callable f =>
            dsimp only
            split
            · exact invoke_below n f paren vs _
            · exact .refl _
        | _ => exact .refl _

/-- The same for several expressions. -/
theorem evalAll_below : ∀ n es m, (evalAll n es m).Below (evalAll (n + 1) es m)
  | 0, _, _ => .inl rfl
  | _ + 1, [], _ => .inr rfl
  | n + 1, e :: es, m =>
    below_andThen (eval_below n e m) fun _ m =>
      below_andThen (evalAll_below n es m) fun _ _ => .refl _

/-- The same for a call. -/
theorem invoke_below : ∀ n f paren args m,
    (invoke n f paren args m).Below (invoke (n + 1) f paren args m)
  | 0, _, _, _, _ => .inl rfl
  | _ + 1, ⟨_, .native _ _ _⟩, _, _, _ => .inr rfl
  | n + 1, ⟨_, .user decl _⟩, _, _, _ =>
    below_andThen (execIn_below n _ decl.body _) fun _ _ => .refl _

/-- The same for a body in another scope. -/
theorem execIn_below : ∀ n scope body m,
    (execIn n scope body m).Below (execIn (n + 1) scope body m)
  | 0, _, _, _ => .inl rfl
  | n + 1, scope, body, m => below_mapMachine _ (execAll_below n body (m.enter scope))

/-- The same for statements in a row. -/
theorem execAll_below : ∀ n body m, (execAll n body m).Below (execAll (n + 1) body m)
  | 0, _, _ => .inl rfl
  | _ + 1, [], _ => .inr rfl
  | n + 1, s :: rest, m => by
    refine below_andThen (exec_below n s m) fun flow m => ?_
    cases flow with
    | normal => exact execAll_below n rest m
    | returned v => exact .refl _

/-- The same for one statement. -/
theorem exec_below : ∀ n s m, (exec n s m).Below (exec (n + 1) s m)
  | 0, _, _ => .inl rfl
  | n + 1, s, m => by
    cases s with
    | expression value => exact below_andThen (eval_below n value m) fun _ _ => .refl _
    | declare name init => exact below_andThen (evalOptional_below n init m) fun _ _ => .refl _
    | block body => exact execIn_below n _ body _
    | branch condition yes no =>
        refine below_andThen (eval_below n condition m) fun v m => ?_
        split
        · exact exec_below n yes m
        · cases no with
          | none => exact .refl _
          | some no => exact exec_below n no m
    | loop condition body => exact repeatWhile_below n condition body m
    | function name params body => exact .inr rfl
    | giveBack word result =>
        exact below_andThen (evalOptional_below n result m) fun _ _ => .refl _

/-- The same for a value that may be missing. -/
theorem evalOptional_below : ∀ n e m, (evalOptional n e m).Below (evalOptional (n + 1) e m)
  | 0, _, _ => .inl rfl
  | _ + 1, none, _ => .inr rfl
  | n + 1, some e, m => eval_below n e m

/-- The same for the rounds of a loop. Each round takes a step of its own. -/
theorem repeatWhile_below : ∀ n condition body m,
    (repeatWhile n condition body m).Below (repeatWhile (n + 1) condition body m)
  | 0, _, _, _ => .inl rfl
  | n + 1, condition, body, m => by
    refine below_andThen (eval_below n condition m) fun v m => ?_
    split
    · refine below_andThen (exec_below n body m) fun flow m => ?_
      cases flow with
      | normal => exact repeatWhile_below n condition body m
      | returned v => exact .refl _
    · exact .refl _

end

/-- The same for whole programs. -/
theorem runProgram_below (n : Nat) (program : Program) (m : Machine) :
    (runProgram n program m).Below (runProgram (n + 1) program m) :=
  below_andThen (execAll_below n program m) fun _ _ => .refl _

/-- Where each supply is below the next, a larger one changes nothing. -/
theorem Outcome.below_of_le {α : Type} {p : Nat → Outcome α}
    (hp : ∀ n, (p n).Below (p (n + 1))) {n k : Nat} (h : n ≤ k) : (p n).Below (p k) := by
  induction h with
  | refl => exact .refl _
  | step _ ih => exact ih.trans (hp _)

/-- Two supplies that are both large enough lead to the same outcome. -/
theorem Outcome.eq_of_below {α : Type} {p : Nat → Outcome α}
    (hp : ∀ n, (p n).Below (p (n + 1))) {n k : Nat} (hn : p n ≠ .starved)
    (hk : p k ≠ .starved) : p n = p k := by
  rcases Nat.le_total n k with h | h
  · exact (below_of_le hp h).resolve_left hn
  · exact ((below_of_le hp h).resolve_left hk).symm

end Scriptlet
