import Scriptlet.Proofs.Run.Coupling
import Scriptlet.Proofs.Run.Place

/-!
# `Scriptlet.Proofs.Run.Course`: what happens in the course of a run

Much of what a program does lies between the start and the end of its run, and a run need not have
an end. The course of a run (`Work.course`) is the row of everything that the run sets about, each
with the machine at that moment, in the order of time. A run that is given up because its supply is
used up has a course too: what it came to until then.

An upkeep says how a machine changes from the start to the end of something. A `Watch` says
what is seen of the course in between:

* `Upkeep.Watch.andThen`: the rule for two steps in a row.
* `Upkeep.Watch.eval_sees`, `Upkeep.Watch.execAll_sees` and their like: what is seen of every
  small step is seen of all runs.
-/

set_option autoImplicit false

namespace Scriptlet

/-! ### The course of a run -/

/-- What a run sets about. -/
inductive Work where
  | eval (e : Expr)
  | evalAll (es : List Expr)
  | evalOptional (e : Option Expr)
  | invoke (f : Callable) (paren : Token) (args : List Value)
  | exec (s : Stmt)
  | execAll (body : List Stmt)
  | repeatWhile (condition : Expr) (body : Stmt)

/-- The operation of a native function that is called, and its arguments. -/
def Work.native? : Work → Option (Native × List Value)
  | .invoke ⟨_, .native _ _ op⟩ _ args => some (op, args)
  | _ => none

/-- What belongs to a second step, if there is one. -/
def Outcome.followed {α β : Type} (x : Outcome α) (next : α → Machine → List β) : List β :=
  match x with
  | .done result m => next result m
  | .failed _ _ => []
  | .starved => []

/-- An operation ends with a machine, with a value or with a fault. -/
theorem Outcome.machine?_ofExcept {α : Type} (token : Token) (x : Except Fault α) (m : Machine) :
    (Outcome.ofExcept token x m).machine? = some m := by
  cases x <;> rfl

/-- Everything that is set about for the sake of some work, in the order of time. -/
def Work.course : Nat → Work → Machine → List (Work × Machine)
  | 0, _, _ => []
  | n + 1, work, m => (work, m) ::
    match work with
    | .eval (.literal _) => []
    | .eval (.get _) => []
    | .eval (.group inner) => course n (.eval inner) m
    | .eval (.unary _ operand) => course n (.eval operand) m
    | .eval (.binary left _ right) =>
      course n (.eval left) m ++ (Scriptlet.eval n left m).followed fun _ m =>
        course n (.eval right) m
    | .eval (.logical left op right) =>
      course n (.eval left) m ++ (Scriptlet.eval n left m).followed fun v m =>
        if Operator.decides op.kind v then [] else course n (.eval right) m
    | .eval (.set _ value) => course n (.eval value) m
    | .eval (.call callee paren args) =>
      course n (.eval callee) m ++ (Scriptlet.eval n callee m).followed fun v m =>
        course n (.evalAll args) m ++ (Scriptlet.evalAll n args m).followed fun vs m =>
          match v with
          | .callable f =>
            if vs.length = f.arity then
              course n (.invoke f paren vs) (m.note (.calling f.text vs.length))
            else []
          | _ => []
    | .evalAll [] => []
    | .evalAll (e :: es) =>
      course n (.eval e) m ++ (Scriptlet.eval n e m).followed fun _ m => course n (.evalAll es) m
    | .evalOptional none => []
    | .evalOptional (some e) => course n (.eval e) m
    | .invoke ⟨_, .native _ _ _⟩ _ _ => []
    | .invoke ⟨_, .user decl closure⟩ _ args =>
      -- The way into the scope of the body takes one more step of the supply.
      match n with
      | 0 => []
      | k + 1 => course k (.execAll decl.body) (m.inside closure decl.params args)
    | .exec (.expression value) => course n (.eval value) m
    | .exec (.declare _ init) => course n (.evalOptional init) m
    | .exec (.block body) =>
      match n with
      | 0 => []
      | k + 1 => course k (.execAll body) (m.inside m.current [] [])
    | .exec (.branch condition yes no) =>
      course n (.eval condition) m ++ (Scriptlet.eval n condition m).followed fun v m =>
        if v.isTruthy then course n (.exec yes) m
        else
          match no with
          | some s => course n (.exec s) m
          | none => []
    | .exec (.loop condition body) => course n (.repeatWhile condition body) m
    | .exec (.function _ _ _) => []
    | .exec (.giveBack _ result) => course n (.evalOptional result) m
    | .execAll [] => []
    | .execAll (s :: rest) =>
      course n (.exec s) m ++ (Scriptlet.exec n s m).followed fun flow m =>
        match flow with
        | .normal => course n (.execAll rest) m
        | .returned _ => []
    | .repeatWhile condition body =>
      course n (.eval condition) m ++ (Scriptlet.eval n condition m).followed fun v m =>
        if v.isTruthy then
          course n (.exec body) m ++ (Scriptlet.exec n body m).followed fun flow m =>
            match flow with
            | .normal => course n (.repeatWhile condition body) m
            | .returned _ => []
        else []

/-! ### Watches -/

/-- What a machine reads from, writes to and draws from, and the clock that it asks. -/
abbrev Devices := Reader × Sink × Generator × Clock

/-- The devices of a machine. -/
def Machine.devices (m : Machine) : Devices := (m.input, m.output, m.generator, m.clock)

namespace Upkeep

/-- The work that an upkeep admits. -/
def Admits (u : Upkeep) (m : Machine) : Work → Prop
  | .eval e => u.Evals e
  | .evalAll es => ∀ e ∈ es, u.Evals e
  | .evalOptional e => ∀ e' ∈ e, u.Evals e'
  | .invoke f _ args => u.Holds m f ∧ ∀ v ∈ args, u.HoldsValue m v
  | .exec s => u.Runs s
  | .execAll body => ∀ s ∈ body, u.Runs s
  | .repeatWhile condition body => u.Evals condition ∧ u.Runs body

/-- The arguments of a native function that an upkeep admits are values that it admits. -/
theorem Admits.args {u : Upkeep} {m : Machine} {work : Work} {op : Native} {args : List Value}
    (hwork : u.Admits m work) (hnative : work.native? = some (op, args)) :
    ∀ v ∈ args, u.HoldsValue m v := by
  unfold Work.native? at hnative
  split at hnative
  · cases hnative
    exact hwork.2
  · cases hnative

/-- What is seen, from a machine on, of a course and of the machine at its end, if there is one.
All small steps of machines under the upkeep are seen. -/
structure Watch (u : Upkeep) (Sees : Machine → List (Work × Machine) → Option Machine → Prop) :
    Prop where
  trans {m m₁ : Machine} {course course' : List (Work × Machine)} {ending : Option Machine} :
    Sees m course (some m₁) → Sees m₁ course' ending → Sees m (course ++ course') ending
  /-- A run may be given up. -/
  starved {m m₁ : Machine} {course : List (Work × Machine)} :
    Sees m course (some m₁) → Sees m course none
  /-- What programs do apart from native functions. -/
  silent {m m₁ : Machine} : u.Ready m → u.Change m m₁ → m₁.devices = m.devices →
    Sees m [] (some m₁)
  /-- Something is set about. -/
  start {m : Machine} {work : Work} : u.Ready m → u.Admits m work → work.native? = none →
    Sees m [(work, m)] (some m)
  /-- A native function does its work at once. -/
  native {m : Machine} {work : Work} {op : Native} {args : List Value} : u.Ready m →
    u.Admits m work → work.native? = some (op, args) →
      Sees m [(work, m)] (some (op.run args m).2)
  /-- The way into the scope of a body and back. -/
  inside {m : Machine} {parent : ScopeId} {params : List Token} {args : List Value}
    {course : List (Work × Machine)} {ending : Option Machine} : u.Ready m →
    u.Ready (m.inside parent params args) →
    Sees (m.inside parent params args) course ending →
      Sees m course (ending.map (·.enter m.current))

namespace Watch

variable {u : Upkeep} {Sees : Machine → List (Work × Machine) → Option Machine → Prop}
  {m m₁ : Machine} {course : List (Work × Machine)} {α β : Type}

/-- Where nothing happens, nothing is seen. -/
theorem refl (w : u.Watch Sees) (h : u.Lawful) (hm : u.Ready m) : Sees m [] (some m) :=
  w.silent hm (h.refl hm) rfl

/-- A small step that keeps the devices, and a run behind it. -/
theorem after (w : u.Watch Sees) (hm : u.Ready m) (hchange : u.Change m m₁)
    (hdevices : m₁.devices = m.devices) {ending : Option Machine}
    (hsees : Sees m₁ course ending) : Sees m course ending :=
  w.trans (w.silent hm hchange hdevices) hsees

/-- The rule for two steps in a row. -/
theorem andThen (w : u.Watch Sees) (h : u.Lawful) {P : Machine → α → Prop} {x : Outcome α}
    {next : α → Machine → Outcome β} {nextCourse : α → Machine → List (Work × Machine)}
    (hkeeps : u.Keeps P m x) (hx : Sees m course x.machine?)
    (hnext : ∀ v m₁, u.Change m m₁ → u.Ready m₁ → P m₁ v →
      Sees m₁ (nextCourse v m₁) (next v m₁).machine?) :
    Sees m (course ++ x.followed nextCourse) (x.andThen next).machine? := by
  cases x with
  | done v m₁ => exact w.trans hx (hnext v m₁ hkeeps.1 (h.ready hkeeps.1) hkeeps.2)
  | failed error m₁ => exact (List.append_nil course).symm ▸ hx
  | starved => exact (List.append_nil course).symm ▸ hx

/-- The same for a second step that sets about nothing. -/
theorem andThen_silent (w : u.Watch Sees) (h : u.Lawful) {P : Machine → α → Prop}
    {x : Outcome α} {next : α → Machine → Outcome β} (hkeeps : u.Keeps P m x)
    (hx : Sees m course x.machine?)
    (hnext : ∀ v m₁, u.Change m m₁ → u.Ready m₁ → P m₁ v → Sees m₁ [] (next v m₁).machine?) :
    Sees m course (x.andThen next).machine? := by
  have hnone : x.followed (fun _ _ => ([] : List (Work × Machine))) = [] := by cases x <;> rfl
  rw [← List.append_nil course, ← hnone]
  exact w.andThen h hkeeps hx hnext

/-- The body of a function or a block, in a scope of its own. -/
theorem execIn_sees (w : u.Watch Sees) {n : Nat} {parent : ScopeId} {params : List Token}
    {args : List Value} {body : List Stmt} (hm : u.Ready m)
    (hinside : u.Ready (m.inside parent params args))
    (hbody : Sees (m.inside parent params args)
      (Work.course n (.execAll body) (m.inside parent params args))
      (execAll n body (m.inside parent params args)).machine?) :
    Sees m (Work.course n (.execAll body) (m.inside parent params args))
      (execIn (n + 1) m.scopes.count body (m.opened parent params args)).machine? := by
  have hsees := w.inside hm hinside hbody
  rw [Machine.execIn_opened]
  cases hy : execAll n body (m.inside parent params args) with
  | done flow m₁ | failed error m₁ | starved =>
      rw [hy] at hsees
      exact hsees

/-- Something that is set about, and what happens from then on. -/
theorem cons (w : u.Watch Sees) (work : Work) {ending : Option Machine} (hm : u.Ready m)
    (hwork : u.Admits m work) (hnative : work.native? = none) (hsees : Sees m course ending) :
    Sees m ((work, m) :: course) ending :=
  w.trans (w.start hm hwork hnative) hsees

mutual

/-- All that an expression sets about is seen. The cases follow the evaluator, and each of its parts
has a part of the course. -/
theorem eval_sees (w : u.Watch Sees) (h : u.Lawful) : ∀ n {e m}, u.Evals e → u.Ready m →
    Sees m (Work.course n (.eval e) m) (eval n e m).machine?
  | 0, _, _, _, hm => w.starved (w.refl h hm)
  | n + 1, e, m, he, hm => by
    unfold Work.course
    refine w.cons (.eval e) hm he rfl ?_
    cases e with
    | literal value => exact w.refl h hm
    | group inner => exact eval_sees w h n (h.parts_evals he (by simp [Expr.parts])) hm
    | unary op operand =>
        have hoperand : u.Evals operand := h.parts_evals he (by simp [Expr.parts])
        refine w.andThen_silent h (eval_keeps h n hoperand hm) (eval_sees w h n hoperand hm) ?_
        intro v m₁ _ hm₁ _
        rw [Outcome.machine?_ofExcept]
        exact w.refl h hm₁
    | binary left op right =>
        have hleft : u.Evals left := h.parts_evals he (by simp [Expr.parts])
        have hright : u.Evals right := h.parts_evals he (by simp [Expr.parts])
        refine w.andThen h (eval_keeps h n hleft hm) (eval_sees w h n hleft hm) ?_
        intro v m₁ _ hm₁ _
        refine w.andThen_silent h (eval_keeps h n hright hm₁) (eval_sees w h n hright hm₁) ?_
        intro v m₂ _ hm₂ _
        rw [Outcome.machine?_ofExcept]
        exact w.refl h hm₂
    | logical left op right =>
        have hleft : u.Evals left := h.parts_evals he (by simp [Expr.parts])
        refine w.andThen h (eval_keeps h n hleft hm) (eval_sees w h n hleft hm) ?_
        intro v m₁ _ hm₁ _
        split
        · exact w.refl h hm₁
        · exact eval_sees w h n (h.parts_evals he (by simp [Expr.parts])) hm₁
    | get name =>
        simp only [eval]
        split
        · exact w.refl h hm
        · exact w.refl h hm
    | set name value =>
        have hvalue : u.Evals value := h.parts_evals he (by simp [Expr.parts])
        refine w.andThen_silent h (eval_keeps h n hvalue hm) (eval_sees w h n hvalue hm) ?_
        intro v m₁ _ hm₁ hv
        split
        case h_1 owner howner => exact w.silent hm₁ (h.assign he hm₁ hv howner) rfl
        case h_2 => exact w.refl h hm₁
    | call callee paren args =>
        have hcallee : u.Evals callee := h.parts_evals he (by simp [Expr.parts])
        have hargs : ∀ arg ∈ args, u.Evals arg := fun arg harg =>
          h.parts_evals he (by simp [Expr.parts, harg])
        refine w.andThen h (eval_keeps h n hcallee hm) (eval_sees w h n hcallee hm) ?_
        intro v m₁ _ hm₁ hv
        refine w.andThen h (evalAll_keeps h n hargs hm₁) (evalAll_sees w h n hargs hm₁) ?_
        intro vs m₂ hchange hm₂ hvs
        cases v with
        | callable f =>
            dsimp only
            split
            -- The record of the call comes first, and the values of before it are still held.
            · have hnote := h.note (.calling f.text vs.length) hm₂
              refine w.after hm₂ hnote rfl (invoke_sees w h n ?_ ?_ (h.ready hnote))
              · exact h.holds hnote (h.holds hchange hv)
              · exact fun v hv => h.holdsValue hnote (hvs v hv)
            · exact w.refl h hm₂
        | nil | bool | number | string => exact w.refl h hm₂

/-- Several expressions, whose courses are behind each other. -/
theorem evalAll_sees (w : u.Watch Sees) (h : u.Lawful) : ∀ n {es m}, (∀ e ∈ es, u.Evals e) →
    u.Ready m → Sees m (Work.course n (.evalAll es) m) (evalAll n es m).machine?
  | 0, _, _, _, hm => w.starved (w.refl h hm)
  | n + 1, [], m, hes, hm => w.cons (.evalAll []) hm hes rfl (w.refl h hm)
  | n + 1, e :: es, m, hes, hm => by
    refine w.cons (.evalAll (e :: es)) hm hes rfl ?_
    have he := hes e (by simp)
    have hrest : ∀ e' ∈ es, u.Evals e' := fun e' he' => hes e' (by simp [he'])
    refine w.andThen h (eval_keeps h n he hm) (eval_sees w h n he hm) ?_
    intro v m₁ _ hm₁ _
    refine w.andThen_silent h (evalAll_keeps h n hrest hm₁) (evalAll_sees w h n hrest hm₁) ?_
    intro vs m₂ _ hm₂ _
    exact w.refl h hm₂

/-- A call is set about, and then its body. A host function sets about nothing more. -/
theorem invoke_sees (w : u.Watch Sees) (h : u.Lawful) : ∀ n {f paren args m}, u.Holds m f →
    (∀ v ∈ args, u.HoldsValue m v) → u.Ready m →
    Sees m (Work.course n (.invoke f paren args) m) (invoke n f paren args m).machine?
  | 0, _, _, _, _, _, _, hm => w.starved (w.refl h hm)
  | n + 1, ⟨identity, .native name arity op⟩, paren, args, m, hf, hargs, hm => by
    have hadmits : u.Admits m (.invoke ⟨identity, .native name arity op⟩ paren args) := ⟨hf, hargs⟩
    have hsees := w.native hm hadmits rfl
    show Sees m _ (Outcome.ofExcept paren (op.run args m).1 (op.run args m).2).machine?
    rw [Outcome.machine?_ofExcept]
    exact hsees
  -- With one step the call is set about, and its body is not.
  | 1, ⟨identity, .user decl closure⟩, paren, args, m, hf, hargs, hm =>
    w.cons (.invoke ⟨identity, .user decl closure⟩ paren args) hm ⟨hf, hargs⟩ rfl
      (w.starved (w.refl h hm))
  | n + 2, ⟨identity, .user decl closure⟩, paren, args, m, hf, hargs, hm => by
    refine w.cons (.invoke ⟨identity, .user decl closure⟩ paren args) hm ⟨hf, hargs⟩
      rfl ?_
    have hinside := h.call hm hf hargs
    have hbody : ∀ s ∈ decl.body, u.Runs s := fun s hs => h.body_runs hf hs
    refine w.andThen_silent h (execIn_keeps h (n + 1) rfl rfl hm hinside hbody)
      (w.execIn_sees hm hinside (execAll_sees w h n hbody hinside)) ?_
    intro flow m₁ _ hm₁ _
    exact w.refl h hm₁

/-- Statements in a row. -/
theorem execAll_sees (w : u.Watch Sees) (h : u.Lawful) : ∀ n {body m}, (∀ s ∈ body, u.Runs s) →
    u.Ready m → Sees m (Work.course n (.execAll body) m) (execAll n body m).machine?
  | 0, _, _, _, hm => w.starved (w.refl h hm)
  | n + 1, [], m, hbody, hm => w.cons (.execAll []) hm hbody rfl (w.refl h hm)
  | n + 1, s :: rest, m, hbody, hm => by
    refine w.cons (.execAll (s :: rest)) hm hbody rfl ?_
    have hs := hbody s (by simp)
    refine w.andThen h (exec_keeps h n hs hm) (exec_sees w h n hs hm) ?_
    intro flow m₁ _ hm₁ _
    cases flow with
    | normal => exact execAll_sees w h n (fun s' hs' => hbody s' (by simp [hs'])) hm₁
    | returned v => exact w.refl h hm₁

/-- All that a statement sets about is seen. -/
theorem exec_sees (w : u.Watch Sees) (h : u.Lawful) : ∀ n {s m}, u.Runs s → u.Ready m →
    Sees m (Work.course n (.exec s) m) (exec n s m).machine?
  | 0, _, _, _, hm => w.starved (w.refl h hm)
  | n + 1, s, m, hs, hm => by
    unfold Work.course
    refine w.cons (.exec s) hm hs rfl ?_
    cases s with
    | expression value =>
        have hvalue : u.Evals value := h.exprs_evals hs (by simp [Stmt.exprs])
        refine w.andThen_silent h (eval_keeps h n hvalue hm) (eval_sees w h n hvalue hm) ?_
        intro v m₁ _ hm₁ _
        exact w.refl h hm₁
    | declare name init =>
        have hinit : ∀ e ∈ init, u.Evals e := fun e he =>
          h.exprs_evals hs (by simpa [Stmt.exprs] using he)
        refine w.andThen_silent h (evalOptional_keeps h n hinit hm)
          (evalOptional_sees w h n hinit hm) ?_
        intro v m₁ _ hm₁ hv
        exact w.silent hm₁ (h.declare hs hm₁ hv) rfl
    | block body =>
        have hinside := h.block hm
        have hbody : ∀ part ∈ body, u.Runs part := fun part hpart =>
          h.parts_runs hs (by simpa [Stmt.parts] using hpart)
        cases n with
        | zero => exact w.starved (w.refl h hm)
        | succ n => exact w.execIn_sees hm hinside (execAll_sees w h n hbody hinside)
    | branch condition yes no =>
        have hcondition : u.Evals condition := h.exprs_evals hs (by simp [Stmt.exprs])
        refine w.andThen h (eval_keeps h n hcondition hm) (eval_sees w h n hcondition hm) ?_
        intro v m₁ _ hm₁ _
        split
        · exact exec_sees w h n (h.parts_runs hs (by simp [Stmt.parts])) hm₁
        · cases no with
          | none => exact w.refl h hm₁
          | some no => exact exec_sees w h n (h.parts_runs hs (by simp [Stmt.parts])) hm₁
    | loop condition body =>
        exact repeatWhile_sees w h n (h.exprs_evals hs (by simp [Stmt.exprs]))
          (h.parts_runs hs (by simp [Stmt.parts])) hm
    | function name params body =>
        have hnote := h.note (.declaring name.name params.length) hm
        exact w.silent hm (h.trans hnote (h.function hs (h.ready hnote))) rfl
    | giveBack word result =>
        have hresult : ∀ e ∈ result, u.Evals e := fun e he =>
          h.exprs_evals hs (by simpa [Stmt.exprs] using he)
        refine w.andThen_silent h (evalOptional_keeps h n hresult hm)
          (evalOptional_sees w h n hresult hm) ?_
        intro v m₁ _ hm₁ _
        exact w.refl h hm₁

/-- A value that may be missing. -/
theorem evalOptional_sees (w : u.Watch Sees) (h : u.Lawful) : ∀ n {e m},
    (∀ e' ∈ e, u.Evals e') → u.Ready m →
    Sees m (Work.course n (.evalOptional e) m) (evalOptional n e m).machine?
  | 0, _, _, _, hm => w.starved (w.refl h hm)
  | _ + 1, none, m, he, hm => w.cons (.evalOptional none) hm he rfl (w.refl h hm)
  | n + 1, some e, m, he, hm =>
    w.cons (.evalOptional (some e)) hm he rfl (eval_sees w h n (he e rfl) hm)

/-- Rounds of a loop. The course of each round is behind those of the rounds before. -/
theorem repeatWhile_sees (w : u.Watch Sees) (h : u.Lawful) : ∀ n {condition body m},
    u.Evals condition → u.Runs body → u.Ready m →
    Sees m (Work.course n (.repeatWhile condition body) m) (repeatWhile n condition body m).machine?
  | 0, _, _, _, _, _, hm => w.starved (w.refl h hm)
  | n + 1, condition, body, m, hcondition, hbody, hm => by
    refine w.cons (.repeatWhile condition body) hm ⟨hcondition, hbody⟩ rfl ?_
    refine w.andThen h (eval_keeps h n hcondition hm) (eval_sees w h n hcondition hm) ?_
    intro v m₁ _ hm₁ _
    split
    · refine w.andThen h (exec_keeps h n hbody hm₁) (exec_sees w h n hbody hm₁) ?_
      intro flow m₂ _ hm₂ _
      cases flow with
      | normal => exact repeatWhile_sees w h n hcondition hbody hm₂
      | returned v => exact w.refl h hm₂
    · exact w.refl h hm₁

end

/-- The same for whole programs. -/
theorem runProgram_sees (w : u.Watch Sees) (h : u.Lawful) (n : Nat) {program : Program}
    (hprogram : ∀ s ∈ program, u.Runs s) (hm : u.Ready m) :
    Sees m (Work.course n (.execAll program) m) (runProgram n program m).machine? := by
  refine w.andThen_silent h (execAll_keeps h n hprogram hm) (execAll_sees w h n hprogram hm) ?_
  intro flow m₁ _ hm₁ _
  cases flow with
  | normal => exact w.refl h hm₁
  | returned v => exact w.silent hm₁ (h.note _ hm₁) rfl

end Watch

/-- All machines in the course of a run are ready. -/
theorem readyWatch (u : Upkeep) :
    u.Watch fun _ course _ => ∀ moment ∈ course, u.Ready moment.2 where
  trans hfirst hsecond moment hmoment := (List.mem_append.1 hmoment).elim (hfirst moment)
    (hsecond moment)
  starved hcourse := hcourse
  silent _ _ _ := by simp
  start hm _ _ := by simpa using hm
  native hm _ _ := by simpa using hm
  inside _ _ hcourse := hcourse

end Upkeep

/-! ### Sources -/

namespace Session

/-- The course of the run of a source. A source with errors in it is not run. -/
def course (s : Session) (n : Nat) (source : String) : List (Work × Machine) :=
  let a := Analysis.ofSource source s.lexicon
  if a.errors = [] then Work.course n (.execAll a.program) (s.analysed a).machine else []

/-- The machine when a session is done with a source, unless it gave it up. -/
def ending? (s : Session) (n : Nat) (source : String) : Option Machine :=
  match s.eval n source with
  | (.starved, _) => none
  | (_, after) => some after.machine

/-- The machine at the end of a run is the one that the session goes on with. -/
theorem machine_of_ending? {s : Session} {n : Nat} {source : String} {m : Machine}
    (h : s.ending? n source = some m) : (s.eval n source).2.machine = m := by
  unfold ending? at h
  split at h
  · cases h
  case h_2 heval =>
    cases h
    rw [heval]

/-- A run that is given up is as if it had not been. -/
theorem machine_of_ending?_none {s : Session} {n : Nat} {source : String}
    (h : s.ending? n source = none) : (s.eval n source).2
      = s.analysed (Analysis.ofSource source s.lexicon) := by
  unfold ending? at h
  by_cases herrors : (Analysis.ofSource source s.lexicon).errors = []
  · rw [eval_accepted n herrors] at h ⊢
    cases hrun : runProgram n (Analysis.ofSource source s.lexicon).program
        (s.analysed (Analysis.ofSource source s.lexicon)).machine with
    | done _ m =>
        rw [hrun] at h
        cases h
    | failed error m =>
        rw [hrun] at h
        cases h
    | starved => rfl
  · rw [eval_rejected n herrors]

end Session

namespace Upkeep

variable {u : Upkeep} {Sees : Machine → List (Work × Machine) → Option Machine → Prop}
  {s : Session}

/-- Notes in a row change a machine as an upkeep allows. -/
theorem Lawful.notes (h : u.Lawful) (records : List Record) {m : Machine} (hm : u.Ready m) :
    u.Change m (records.foldl Machine.note m) := by
  induction records generalizing m with
  | nil => exact h.refl hm
  | cons record records ih =>
      have hnote := h.note record hm
      exact h.trans hnote (ih (h.ready hnote))

/-- The analysis of a source leaves records and nothing else. -/
theorem Lawful.analysed (h : u.Lawful) (hs : u.Ready s.machine) (a : Analysis) :
    u.Change s.machine (s.analysed a).machine := by
  have hnotes := h.notes a.records hs
  rwa [Machine.foldl_note] at hnotes

/-- A source changes the machine as programs do, however its run ends. -/
theorem Lawful.source (h : u.Lawful) (n : Nat) (source : String) (hs : u.Ready s.machine)
    (hprogram : ∀ stmt ∈ (Analysis.ofSource source s.lexicon).program, u.Runs stmt) :
    u.Change s.machine (s.eval n source).2.machine := by
  have hanalysed := h.analysed hs (Analysis.ofSource source s.lexicon)
  -- A source with an error in it is analysed and not run.
  by_cases herrors : (Analysis.ofSource source s.lexicon).errors = []
  · rw [Session.eval_accepted n herrors]
    generalize Analysis.ofSource source s.lexicon = a at hanalysed hprogram
    have hkeeps := runProgram_keeps h n hprogram (h.ready hanalysed)
    cases hrun : runProgram n a.program (s.analysed a).machine with
    | done _ m =>
        rw [hrun] at hkeeps
        exact h.trans hanalysed (h.trans hkeeps.1 (h.note _ (h.ready hkeeps.1)))
    | failed error m =>
        rw [hrun] at hkeeps
        exact h.trans hanalysed hkeeps
    | starved => exact hanalysed
  · rw [Session.eval_rejected n herrors]
    exact hanalysed

/-- What is seen of every small step is seen of all that a source comes to. -/
theorem Watch.source_sees (w : u.Watch Sees) (h : u.Lawful) (n : Nat) (source : String)
    (hs : u.Ready s.machine)
    (hprogram : ∀ stmt ∈ (Analysis.ofSource source s.lexicon).program, u.Runs stmt) :
    Sees s.machine (s.course n source) (s.ending? n source) := by
  have hanalysed := h.analysed hs (Analysis.ofSource source s.lexicon)
  unfold Session.course Session.ending?
  -- The end of the run is noted down, which is a small step that nothing is set about in.
  by_cases herrors : (Analysis.ofSource source s.lexicon).errors = []
  · rw [Session.eval_accepted n herrors, if_pos herrors]
    generalize Analysis.ofSource source s.lexicon = a at hanalysed hprogram
    have hm := h.ready hanalysed
    refine w.after hs hanalysed rfl ?_
    have hkeeps := runProgram_keeps h n hprogram hm
    have hsees := w.runProgram_sees h n hprogram hm
    cases hrun : runProgram n a.program (s.analysed a).machine with
    | done _ m =>
        rw [hrun] at hkeeps hsees
        have hready := h.ready hkeeps.1
        have hnote := w.silent hready (h.note (.ran a.program.length) hready) rfl
        simpa using w.trans hsees hnote
    | failed error m =>
        rw [hrun] at hsees
        exact hsees
    | starved =>
        rw [hrun] at hsees
        exact hsees
  · rw [Session.eval_rejected n herrors, if_neg herrors]
    exact w.silent hs hanalysed rfl

end Upkeep

end Scriptlet
