import Scriptlet.Proofs.Run.Course

/-!
# `Scriptlet.Proofs.Run.Calls`: calls are those of call expressions

In the course of a run a function is called with a parenthesis that answers for its faults. This is
the one that closes a call expression which the run has set about, and the expression comes to what
the call comes to.

* `Work.Placed`: a call belongs to a call expression of a row.
* `Work.Calls`: all calls of a row do. There is a rule for rows behind each other (`Calls.append`),
  and one for each kind of work.
* `Session.calls_course`: what this comes to for the course of a source.
-/

set_option autoImplicit false

namespace Scriptlet

/-- A call expression whose callee and arguments have their values comes to what the call comes
to. -/
theorem eval_call {n : Nat} {callee : Expr} (paren : Token) {es : List Expr} {f : Callable}
    {vs : List Value} {m m₁ m₂ : Machine} (hv : eval n callee m = .done (.callable f) m₁)
    (hvs : evalAll n es m₁ = .done vs m₂) (harity : vs.length = f.arity) :
    eval (n + 1) (.call callee paren es) m
      = invoke n f paren vs (m₂.note (.calling f.text vs.length)) := by
  simp only [eval, hv, hvs, Outcome.andThen, if_pos harity]

namespace Work

/-- Whether a function is called. -/
def isCall : Work → Bool
  | .invoke _ _ _ => true
  | _ => false

/-- The call of a function comes to what a call expression comes to that is in the row, and its
parenthesis is the one that closes this expression. -/
def Placed (row : List (Work × Machine)) (f : Callable) (paren : Token) (args : List Value)
    (m : Machine) : Prop :=
  ∃ callee es m₀ n, (Work.eval (.call callee paren es), m₀) ∈ row ∧
    Scriptlet.eval (n + 2) (.call callee paren es) m₀ = Scriptlet.invoke (n + 1) f paren args m

/-- All calls in the row belong to call expressions in it. -/
def Calls (row : List (Work × Machine)) : Prop :=
  ∀ f paren args m, (Work.invoke f paren args, m) ∈ row → Placed row f paren args m

variable {row later : List (Work × Machine)} {f : Callable} {paren : Token} {args : List Value}
  {m : Machine}

/-- Work that is set about comes first. -/
theorem course_succ (n : Nat) (work : Work) (m : Machine) :
    course (n + 1) work m = (work, m) :: (course (n + 1) work m).tail := by
  unfold course
  rfl

/-- A call that is placed in a row is placed in every longer one. -/
theorem Placed.mono (h : Placed row f paren args m) (hsub : row ⊆ later) :
    Placed later f paren args m := by
  obtain ⟨callee, es, m₀, n, hmem, heval⟩ := h
  exact ⟨callee, es, m₀, n, hsub hmem, heval⟩

/-- Where nothing is set about, no call is out of place. -/
theorem calls_nil : Calls [] := by
  intro f paren args m hmem
  cases hmem

/-- Two rows whose calls are placed, one behind the other. -/
theorem Calls.append (h : Calls row) (h' : Calls later) : Calls (row ++ later) := by
  intro f paren args m hmem
  obtain hmem | hmem := List.mem_append.1 hmem
  · exact (h _ _ _ _ hmem).mono (List.subset_append_left _ _)
  · exact (h' _ _ _ _ hmem).mono (List.subset_append_right _ _)

/-- Other work does not matter. -/
theorem Calls.cons {work : Work} (hwork : work.isCall = false) (h : Calls row) :
    Calls ((work, m) :: row) := by
  intro f paren args m' hmem
  obtain heq | hmem := List.mem_cons.1 hmem
  · cases heq
    cases hwork
  · exact (h _ _ _ _ hmem).mono (List.subset_cons_self _ _)

/-- One more call that belongs to a call expression. -/
theorem Calls.insert {early : List (Work × Machine)} (h : Calls (early ++ later))
    (hcall : Placed early f paren args m) :
    Calls (early ++ (Work.invoke f paren args, m) :: later) := by
  have hsub : early ++ later ⊆ early ++ (Work.invoke f paren args, m) :: later := by
    intro moment hmem
    simp only [List.mem_append, List.mem_cons] at hmem ⊢
    exact hmem.imp_right .inr
  intro f' paren' args' m' hmem
  obtain hmem | hmem := List.mem_append.1 hmem
  · exact (h _ _ _ _ (List.mem_append_left _ hmem)).mono hsub
  · obtain heq | hmem := List.mem_cons.1 hmem
    · cases heq
      exact hcall.mono (List.subset_append_left _ _)
    · exact (h _ _ _ _ (List.mem_append_right _ hmem)).mono hsub

/-- A second step whose calls are placed, whatever the first one comes to. -/
theorem Calls.followed {α : Type} {x : Outcome α} {next : α → Machine → List (Work × Machine)}
    (h : ∀ v m, Calls (next v m)) : Calls (x.followed next) := by
  cases x with
  | done v m => exact h v m
  | failed | starved => exact calls_nil

/-- A call expression calls what its callee comes to. -/
theorem calls_call {n : Nat} {callee : Expr} {es : List Expr}
    (hcallee : Calls (course n (.eval callee) m)) (hargs : ∀ m, Calls (course n (.evalAll es) m))
    (hinvoke : ∀ f args m, Calls (course n (.invoke f paren args) m).tail) :
    Calls (course (n + 1) (.eval (.call callee paren es)) m) := by
  -- The call is reached only if the callee has a value, the arguments have values, and their number
  -- is right.
  unfold course
  cases hv : Scriptlet.eval n callee m with
  | failed | starved =>
      simp only [hv, Outcome.followed, List.append_nil]
      exact .cons rfl hcallee
  | done v m₁ =>
      have hboth : Calls ((.eval (.call callee paren es), m) ::
          (course n (.eval callee) m ++ course n (.evalAll es) m₁)) :=
        .cons rfl (hcallee.append (hargs m₁))
      cases hvs : Scriptlet.evalAll n es m₁ with
      | failed | starved =>
          simp only [hv, hvs, Outcome.followed, List.append_nil]
          exact hboth
      | done vs m₂ =>
          simp only [hv, hvs, Outcome.followed]
          split
          case h_2 =>
            rw [List.append_nil]
            exact hboth
          case h_1 f =>
            split
            case isFalse =>
              rw [List.append_nil]
              exact hboth
            case isTrue harity =>
              rw [← List.append_assoc, ← List.cons_append]
              have htail := hinvoke f vs (m₂.note (.calling f.text vs.length))
              have heval := eval_call paren hv hvs harity
              cases n with
              | zero =>
                  show Calls (_ ++ [])
                  rw [List.append_nil]
                  exact hboth
              | succ k =>
                  rw [course_succ k (.invoke f paren vs)]
                  exact (hboth.append htail).insert ⟨callee, es, m, k, List.mem_cons_self, heval⟩

section Steps

variable {n : Nat} (hwork : ∀ work m, work.isCall = false → Calls (course n work m))

include hwork

/-- The calls in the course of an expression are placed. Only a call expression makes one of its
own, and all others have those of their parts. -/
theorem calls_eval (hinvoke : ∀ f paren args m, Calls (course n (.invoke f paren args) m).tail)
    (e : Expr) : Calls (course (n + 1) (.eval e) m) := by
  by_cases hcall : ∃ callee paren es, e = .call callee paren es
  · obtain ⟨callee, paren, es, rfl⟩ := hcall
    exact calls_call (hwork _ _ rfl) (fun _ => hwork _ _ rfl) (hinvoke · paren · ·)
  · unfold course
    refine .cons rfl ?_
    cases e with
    | literal | get => exact calls_nil
    | group | unary | set => exact hwork _ _ rfl
    | binary left op right => exact .append (hwork _ _ rfl) (.followed fun _ _ => hwork _ _ rfl)
    | logical left op right =>
        refine .append (hwork _ _ rfl) (.followed fun v _ => ?_)
        split
        · exact calls_nil
        · exact hwork _ _ rfl
    | call callee paren es => exact absurd ⟨callee, paren, es, rfl⟩ hcall

/-- The calls in the course of a statement are those of its parts. -/
theorem calls_exec (hblock : ∀ body m, Calls (course (n - 1) (.execAll body) m)) (s : Stmt) :
    Calls (course (n + 1) (.exec s) m) := by
  unfold course
  refine .cons rfl ?_
  cases s with
  | expression | declare | loop | giveBack => exact hwork _ _ rfl
  | function => exact calls_nil
  | block body =>
      cases n with
      | zero => exact calls_nil
      | succ k => exact hblock body _
  | branch condition yes no =>
      refine .append (hwork _ _ rfl) (.followed fun v _ => ?_)
      split
      · exact hwork _ _ rfl
      · cases no with
        | none => exact calls_nil
        | some s => exact hwork _ _ rfl

/-- Behind a statement the others are run, unless a value is given back. -/
theorem calls_flow (work : Work) (hcall : work.isCall = false) (flow : Flow) (m : Machine) :
    Calls (match flow with
      | .normal => course n work m
      | .returned _ => []) := by
  cases flow with
  | normal => exact hwork _ _ hcall
  | returned => exact calls_nil

end Steps

/-- All calls in a course are placed, but the first one if the course is that of a call: what it
belongs to is outside. -/
theorem calls_course (n : Nat) : (∀ work m, work.isCall = false → Calls (course n work m)) ∧
    ∀ f paren args m, Calls (course n (.invoke f paren args) m).tail := by
  induction n using Nat.strongRecOn with
  | ind n ih =>
  cases n with
  | zero => exact ⟨fun _ _ _ => calls_nil, fun _ _ _ _ => calls_nil⟩
  | succ n =>
  obtain ⟨hwork, hinvoke⟩ := ih n (Nat.lt_succ_self n)
  -- The bodies of functions and blocks take one more step of the supply.
  have hbody (body : List Stmt) (m : Machine) : Calls (course (n - 1) (.execAll body) m) :=
    (ih (n - 1) (by omega)).1 _ m rfl
  constructor
  case left =>
    intro work m hcall
    cases work with
    | eval e => exact calls_eval hwork hinvoke e
    | exec s => exact calls_exec hwork hbody s
    | invoke => cases hcall
    | evalAll es =>
        unfold course
        refine .cons rfl ?_
        cases es with
        | nil => exact calls_nil
        | cons e es => exact .append (hwork _ _ rfl) (.followed fun _ _ => hwork _ _ rfl)
    | evalOptional e =>
        unfold course
        refine .cons rfl ?_
        cases e with
        | none => exact calls_nil
        | some e => exact hwork _ _ rfl
    | execAll body =>
        unfold course
        refine .cons rfl ?_
        cases body with
        | nil => exact calls_nil
        | cons s rest =>
            exact .append (hwork _ _ rfl) (.followed (calls_flow hwork (.execAll rest) rfl))
    | repeatWhile condition body =>
        unfold course
        refine .cons rfl (.append (hwork _ _ rfl) (.followed fun v _ => ?_))
        split
        · refine .append (hwork _ _ rfl) (.followed ?_)
          exact calls_flow hwork (.repeatWhile condition body) rfl
        · exact calls_nil
  case right =>
    intro f paren args m
    obtain ⟨identity, code⟩ := f
    unfold course
    cases code with
    | native => exact calls_nil
    | user decl closure =>
        cases n with
        | zero => exact calls_nil
        | succ k => exact hbody decl.body _

end Work

/-- All calls in the run of a source are those of call expressions. -/
theorem Session.calls_course (s : Session) (n : Nat) (source : String) :
    Work.Calls (s.course n source) := by
  dsimp only [Session.course]
  split
  · exact (Work.calls_course n).1 _ _ rfl
  · exact Work.calls_nil

end Scriptlet
