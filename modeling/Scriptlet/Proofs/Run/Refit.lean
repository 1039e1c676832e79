import Scriptlet.Proofs.Run.Course

/-!
# `Scriptlet.Proofs.Run.Refit`: the same run with other devices

Programs come to the input, the output, the generator and the clock through native functions only.
So if devices are exchanged for others with which every native function answers the same, a run does
the same with the others: it ends in the same way, and its machine at the end is the same but for
the devices, which are exchanged too. It is enough that the native functions answer the same which
are called in the course of the run.

* `Refits`: an exchange of devices that no native function notices.
* `Work.Unnoticed`: an exchange that those in a course do not notice.
* `eval_refit`, `execAll_refit` and the lemmas between them: the run does not notice it either.
* `Session.eval_refit`: nor does a session that is asked to run a source.
-/

set_option autoImplicit false

namespace Scriptlet

/-- The machine with other devices. -/
def Machine.refit (f : Devices → Devices) (m : Machine) : Machine :=
  { m with
    input := (f m.devices).1
    output := (f m.devices).2.1
    generator := (f m.devices).2.2.1
    clock := (f m.devices).2.2.2 }

/-- A call of a native function on a machine does not notice the other devices. -/
def Native.Unnoticed (f : Devices → Devices) (op : Native) (args : List Value) (m : Machine) :
    Prop :=
  op.run args (m.refit f) = ((op.run args m).1, (op.run args m).2.refit f)

/-- No native function notices the other devices. -/
def Refits (f : Devices → Devices) : Prop :=
  ∀ (op : Native) (args : List Value) (m : Machine), op.Unnoticed f args m

/-- No native function that is called in a course notices the other devices. -/
def Work.Unnoticed (f : Devices → Devices) (course : List (Work × Machine)) : Prop :=
  ∀ moment ∈ course, ∀ op args, moment.1.native? = some (op, args) →
    op.Unnoticed f args moment.2

variable {f : Devices → Devices}

/-- What no native function notices at all, none notices in a course. -/
theorem Refits.unnoticed (hf : Refits f) (course : List (Work × Machine)) :
    Work.Unnoticed f course := fun moment _ op args _ => hf op args moment.2

namespace Work.Unnoticed

variable {course course' : List (Work × Machine)}

/-- The first part of a course. -/
theorem left (h : Unnoticed f (course ++ course')) : Unnoticed f course :=
  fun moment hmoment => h moment (List.mem_append_left _ hmoment)

/-- The second part of a course. -/
theorem right (h : Unnoticed f (course ++ course')) : Unnoticed f course' :=
  fun moment hmoment => h moment (List.mem_append_right _ hmoment)

/-- What comes behind the first moment of a course. -/
theorem tail {moment : Work × Machine} (h : Unnoticed f (moment :: course)) : Unnoticed f course :=
  fun moment hmoment => h moment (List.mem_cons_of_mem _ hmoment)

end Work.Unnoticed

namespace Outcome

variable {α β : Type}

/-- Two steps in a row. The second one goes on from the machine with the other devices. -/
theorem refit_andThen {x : Outcome α} {next : α → Machine → Outcome β}
    {course : α → Machine → List (Work × Machine)}
    (hnext : ∀ v m, Work.Unnoticed f (course v m) →
      next v (m.refit f) = (next v m).mapMachine (·.refit f))
    (h : Work.Unnoticed f (x.followed course)) :
    (x.mapMachine (·.refit f)).andThen next = (x.andThen next).mapMachine (·.refit f) := by
  cases x with
  | done v m => exact hnext v m h
  | failed error m => rfl
  | starved => rfl

/-- The same if there is nothing to notice in the second step. -/
theorem refit_andThen_silent {x : Outcome α} {next : α → Machine → Outcome β}
    (hnext : ∀ v m, next v (m.refit f) = (next v m).mapMachine (·.refit f)) :
    (x.mapMachine (·.refit f)).andThen next = (x.andThen next).mapMachine (·.refit f) := by
  cases x with
  | done v m => exact hnext v m
  | failed error m => rfl
  | starved => rfl

/-- A reply on a changed machine is the reply, changed. -/
theorem ofExcept_mapMachine (token : Token) (x : Except Fault α) (m : Machine)
    (change : Machine → Machine) :
    ofExcept token x (change m) = (ofExcept token x m).mapMachine change := by
  cases x <;> rfl

end Outcome

open Outcome

mutual

/-- The evaluation of an expression does not notice the exchange. There is one case for each kind of
expression, and a course for each of its parts. -/
theorem eval_refit : ∀ n e m, Work.Unnoticed f (Work.course n (.eval e) m) →
    eval n e (m.refit f) = (eval n e m).mapMachine (·.refit f)
  | 0, _, _, _ => rfl
  | n + 1, e, m, h => by
    unfold Work.course at h
    -- The expression itself is set about first, and then its parts.
    replace h := h.tail
    cases e with
    | literal value => rfl
    | group inner => exact eval_refit n inner m h
    | unary op operand =>
        simp only [eval, eval_refit n operand m h]
        exact refit_andThen_silent fun v m => ofExcept_mapMachine op _ m _
    | binary left op right =>
        simp only [eval, eval_refit n left m h.left]
        refine refit_andThen (fun v m h => ?_) h.right
        rw [eval_refit n right m h]
        exact refit_andThen_silent fun w m => ofExcept_mapMachine op _ m _
    | logical left op right =>
        simp only [eval, eval_refit n left m h.left]
        refine refit_andThen (fun v m h => ?_) h.right
        split
        · rfl
        case isFalse hdecides =>
          rw [if_neg hdecides] at h
          exact eval_refit n right m h
    | get name =>
        -- Names are looked up in scopes, and these are not exchanged.
        have hget : (m.refit f).get? name.lexeme = m.get? name.lexeme := rfl
        simp only [eval, hget]
        cases m.get? name.lexeme <;> rfl
    | set name value =>
        simp only [eval, eval_refit n value m h]
        refine refit_andThen_silent fun v m => ?_
        have howner : (m.refit f).owner? name.lexeme = m.owner? name.lexeme := rfl
        simp only [howner]
        cases m.owner? name.lexeme <;> rfl
    | call callee paren args =>
        simp only [eval, eval_refit n callee m h.left]
        refine refit_andThen (fun v m h => ?_) h.right
        rw [evalAll_refit n args m h.left]
        refine refit_andThen (fun vs m h => ?_) h.right
        cases v with
        | callable g =>
            dsimp only at h ⊢
            split
            case isTrue harity =>
              rw [if_pos harity] at h
              exact invoke_refit n g paren vs (m.note (.calling g.text vs.length)) h
            · rfl
        | nil | bool | number | string => rfl

/-- Several expressions, from left to right. -/
theorem evalAll_refit : ∀ n es m, Work.Unnoticed f (Work.course n (.evalAll es) m) →
    evalAll n es (m.refit f) = (evalAll n es m).mapMachine (·.refit f)
  | 0, _, _, _ => rfl
  | _ + 1, [], _, _ => rfl
  | n + 1, e :: es, m, h => by
    replace h := h.tail
    simp only [evalAll, eval_refit n e m h.left]
    refine refit_andThen (fun v m h => ?_) h.right
    rw [evalAll_refit n es m h]
    exact refit_andThen_silent fun vs m => rfl

/-- A call. Only here a device is used, by a native function that does not notice. -/
theorem invoke_refit : ∀ n g paren args m,
    Work.Unnoticed f (Work.course n (.invoke g paren args) m) →
    invoke n g paren args (m.refit f) = (invoke n g paren args m).mapMachine (·.refit f)
  | 0, _, _, _, _, _ => rfl
  | n + 1, ⟨_, .native _ _ op⟩, paren, args, m, h => by
    have hcall : op.Unnoticed f args m := h _ List.mem_cons_self op args rfl
    show ofExcept paren (op.run args (m.refit f)).1 (op.run args (m.refit f)).2 = _
    rw [hcall]
    exact ofExcept_mapMachine paren _ _ (·.refit f)
  | 1, ⟨_, .user _ _⟩, _, _, _, _ => rfl
  | n + 2, ⟨_, .user decl closure⟩, _, args, m, h => by
    show (execIn (n + 1) m.scopes.count decl.body
      ((m.opened closure decl.params args).refit f)).andThen _ = _
    rw [execIn_refit n m.scopes.count decl.body (m.opened closure decl.params args) h.tail]
    exact refit_andThen_silent fun flow m => rfl

/-- A body in another scope. -/
theorem execIn_refit : ∀ n scope body m,
    Work.Unnoticed f (Work.course n (.execAll body) (m.enter scope)) →
    execIn (n + 1) scope body (m.refit f) = (execIn (n + 1) scope body m).mapMachine (·.refit f)
  | n, scope, body, m, h => by
    rw [execIn_succ, execIn_succ]
    show (execAll n body ((m.enter scope).refit f)).mapMachine _ = _
    rw [execAll_refit n body (m.enter scope) h]
    cases execAll n body (m.enter scope) <;> rfl

/-- Statements in a row. -/
theorem execAll_refit : ∀ n body m, Work.Unnoticed f (Work.course n (.execAll body) m) →
    execAll n body (m.refit f) = (execAll n body m).mapMachine (·.refit f)
  | 0, _, _, _ => rfl
  | _ + 1, [], _, _ => rfl
  | n + 1, s :: rest, m, h => by
    replace h := h.tail
    simp only [execAll, exec_refit n s m h.left]
    refine refit_andThen (fun flow m h => ?_) h.right
    cases flow with
    | normal => exact execAll_refit n rest m h
    | returned v => rfl

/-- One statement. -/
theorem exec_refit : ∀ n s m, Work.Unnoticed f (Work.course n (.exec s) m) →
    exec n s (m.refit f) = (exec n s m).mapMachine (·.refit f)
  | 0, _, _, _ => rfl
  | n + 1, s, m, h => by
    unfold Work.course at h
    replace h := h.tail
    cases s with
    | expression value =>
        simp only [exec, eval_refit n value m h]
        exact refit_andThen_silent fun v m => rfl
    | declare name init =>
        simp only [exec, evalOptional_refit n init m h]
        exact refit_andThen_silent fun v m => rfl
    | block body =>
        -- With one step the block is entered and nothing is run in it.
        cases n with
        | zero => rfl
        | succ n => exact execIn_refit n m.scopes.count body (m.opened m.current [] []) h
    | branch condition yes no =>
        simp only [exec, eval_refit n condition m h.left]
        refine refit_andThen (fun v m h => ?_) h.right
        split
        case isTrue htrue =>
          rw [if_pos htrue] at h
          exact exec_refit n yes m h
        case isFalse hfalse =>
          rw [if_neg hfalse] at h
          cases no with
          | none => rfl
          | some no => exact exec_refit n no m h
    | loop condition body => exact repeatWhile_refit n condition body m h
    | function name params body => rfl
    | giveBack word result =>
        simp only [exec, evalOptional_refit n result m h]
        exact refit_andThen_silent fun v m => rfl

/-- A value that may be missing. -/
theorem evalOptional_refit : ∀ n e m, Work.Unnoticed f (Work.course n (.evalOptional e) m) →
    evalOptional n e (m.refit f) = (evalOptional n e m).mapMachine (·.refit f)
  | 0, _, _, _ => rfl
  | _ + 1, none, _, _ => rfl
  | n + 1, some e, m, h => eval_refit n e m h.tail

/-- Rounds of a loop. The course of all rounds holds that of the first one and that of the others.
-/
theorem repeatWhile_refit : ∀ n condition body m,
    Work.Unnoticed f (Work.course n (.repeatWhile condition body) m) →
    repeatWhile n condition body (m.refit f)
      = (repeatWhile n condition body m).mapMachine (·.refit f)
  | 0, _, _, _, _ => rfl
  | n + 1, condition, body, m, h => by
    replace h := h.tail
    simp only [repeatWhile, eval_refit n condition m h.left]
    refine refit_andThen (fun v m h => ?_) h.right
    split
    case isTrue htrue =>
      -- The course branches as the run does, so the same branch is taken there.
      rw [if_pos htrue] at h
      rw [exec_refit n body m h.left]
      refine refit_andThen (fun flow m h => ?_) h.right
      cases flow with
      | normal => exact repeatWhile_refit n condition body m h
      | returned v => rfl
    · rfl

end

/-- A whole program. -/
theorem runProgram_refit (n : Nat) (program : Program) (m : Machine)
    (h : Work.Unnoticed f (Work.course n (.execAll program) m)) :
    runProgram n program (m.refit f) = (runProgram n program m).mapMachine (·.refit f) := by
  simp only [runProgram, execAll_refit n program m h]
  refine refit_andThen_silent fun flow m => ?_
  cases flow <;> rfl

/-- The session with other devices. -/
def Session.refit (f : Devices → Devices) (s : Session) : Session :=
  { s with machine := s.machine.refit f }

/-- A source comes to the same with the other devices. -/
theorem Session.eval_refit (hf : Refits f) (s : Session) (n : Nat) (source : String) :
    (s.refit f).eval n source = ((s.eval n source).1, (s.eval n source).2.refit f) := by
  by_cases herrors : (Analysis.ofSource source s.lexicon).errors = []
  · have hlexicon : (s.refit f).lexicon = s.lexicon := rfl
    have hanalysed : ∀ a, ((s.refit f).analysed a).machine = (s.analysed a).machine.refit f :=
      fun _ => rfl
    rw [eval_accepted n herrors, eval_accepted (s := s.refit f) n herrors]
    simp only [hlexicon, hanalysed, runProgram_refit _ _ _ (hf.unnoticed _)]
    generalize runProgram n (Analysis.ofSource source s.lexicon).program
      (s.analysed (Analysis.ofSource source s.lexicon)).machine = x
    cases x <;> rfl
  · rw [eval_rejected n herrors, eval_rejected (s := s.refit f) n herrors]
    rfl

end Scriptlet
