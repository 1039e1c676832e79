import Scriptlet.Proofs.Parser.Kept
import Scriptlet.Proofs.Run.Chain
import Scriptlet.Proofs.Run.Coupling
import Scriptlet.Proofs.Run.Place
import Scriptlet.Proofs.Tree.Within
import Scriptlet.Run.SplitMix

/-!
# `Scriptlet.Proofs.Run.Declaring`: only declarations bind names

Scopes bind names, and of all that a program does only a declaration adds a name to a scope
that is there already, namely to the current one. Assignments change values. Blocks and calls
declare names in scopes of their own, which nobody looks into afterwards, unless a function
remembers them.

`Machine.Frame` is what a run leaves of the names. Whether the run may declare names where it
starts is a parameter.

* `eval_framed`, `execIn_framed`, `exec_framed` and the lemmas between them: the frames of all
  runs. Only statements that are not `Stmt.Quiet` declare names where they run.
* `Stmt.Proper.quiet_or_declares`: the parser makes quiet statements and plain declarations.
* `only_declarations_bind`: so expressions, calls and blocks bind no name, and other statements
  at most the one that they declare.
-/

set_option autoImplicit false

namespace Scriptlet

/-! ### The names in a scope -/

namespace Scope

/-- The names that a scope binds itself. -/
def names (scope : Scope) : List Symbol := scope.bindings.map (·.1)

/-- A scope binds a name if the name is among its names. -/
theorem binds_eq (scope : Scope) (name : Symbol) :
    scope.binds name = scope.names.any (· == name) := by
  simp only [binds, names, List.any_map]
  rfl

/-- New values, old names. -/
theorem names_assign (scope : Scope) (name : Symbol) (v : Value) :
    (scope.assign name v).names = scope.names := by
  simp only [names, assign, rebind, List.map_map]
  refine List.map_congr_left fun binding _ => ?_
  simp only [Function.comp_apply]
  split <;> rfl

/-- A definition adds a name at the end, unless it is there. -/
theorem names_define (scope : Scope) (name : Symbol) (v : Value) :
    (scope.define name v).names
      = if scope.names.any (· == name) then scope.names else scope.names ++ [name] := by
  rw [← binds_eq]
  unfold define
  split
  · exact names_assign scope name v
  · simp [names]

end Scope

namespace Scopes

variable {s s' : Scopes} {i : ScopeId}

/-- The names that the scope `i` binds itself. -/
def namesAt (s : Scopes) (i : ScopeId) : List Symbol := ((s.at? i).map Scope.names).getD []

/-- The names at a place are those of the scope there. -/
theorem namesAt_of_at? {scope : Scope} (h : s.at? i = some scope) :
    s.namesAt i = scope.names := by
  simp [namesAt, h]

/-- The same scope binds the same names. -/
theorem namesAt_eq_of_at? (h : s'.at? i = s.at? i) : s'.namesAt i = s.namesAt i := by
  simp [namesAt, h]

/-- Assignments leave the names of all scopes as they are. -/
theorem namesAt_assignAt (s : Scopes) (owner i : ScopeId) (name : Symbol) (v : Value) :
    (s.assignAt owner name v).namesAt i = s.namesAt i := by
  simp only [namesAt, assignAt, at?_modify]
  split
  · simp [Function.comp_def, Scope.names_assign]
  · rfl

/-- A definition in one scope leaves the names of the others as they are. -/
theorem namesAt_define_of_ne {id : ScopeId} (hne : i ≠ id) (name : Symbol) (v : Value) :
    (s.define id name v).namesAt i = s.namesAt i := by
  apply namesAt_eq_of_at?
  simp only [define, at?_modify, if_neg hne]

/-- A declaration adds its name, unless the scope binds it already. -/
theorem namesAt_define (s : Scopes) (id : ScopeId) (name : Symbol) (v : Value) :
    (s.define id name v).namesAt id = s.namesAt id ∨
      (s.namesAt id).any (· == name) = false ∧
        (s.define id name v).namesAt id = s.namesAt id ++ [name] := by
  simp only [namesAt, define, at?_modify, if_true]
  cases s.at? id with
  | none => exact .inl rfl
  | some scope =>
      simp only [Option.map_some, Option.getD_some, Scope.names_define]
      cases scope.names.any (· == name) with
      | true => exact .inl rfl
      | false => exact .inr ⟨rfl, rfl⟩

/-- If scopes keep their parents and their names, then a name is found where it was found. -/
theorem Grows.resolve (h : s.Grows s')
    (hnames : ∀ i < s.count, s'.namesAt i = s.namesAt i) (name : Symbol) :
    ∀ i < s.count, s'.resolve name i = s.resolve name i := by
  intro i
  induction i using Nat.strongRecOn with
  | ind i ih =>
      intro hi
      have hi' : i < s'.count := Nat.lt_of_lt_of_le hi h.count
      obtain ⟨scope, hscope⟩ : ∃ scope, s.at? i = some scope := ⟨_, Array.getElem?_eq_getElem hi⟩
      obtain ⟨scope', hscope'⟩ : ∃ scope, s'.at? i = some scope :=
        ⟨_, Array.getElem?_eq_getElem hi'⟩
      have hparent : scope'.parent = scope.parent := by
        rw [← parent?_of_at? hscope, ← parent?_of_at? hscope', h.parent hi]
      have hbinds : scope'.binds name = scope.binds name := by
        rw [Scope.binds_eq, Scope.binds_eq, ← namesAt_of_at? hscope, ← namesAt_of_at? hscope',
          hnames i hi]
      rw [resolve_eq, resolve_eq s, hscope, hscope']
      simp only [hparent, hbinds]
      -- The search goes on in an older scope, or not at all.
      split
      · rfl
      · cases scope.parent with
        | none => rfl
        | some parent =>
            simp only
            split
            case isTrue hlt => exact ih parent hlt (Nat.lt_trans hlt hi)
            case isFalse => rfl

end Scopes

/-! ### What a run leaves of the names -/

/-- All scopes that were there keep their places and their names. Only the scope in which the
run starts may have other names, and only if the run declares any there. -/
structure Machine.Frame (declaring : Prop) (m m₁ : Machine) : Prop where
  current : m₁.current = m.current
  grows : m.scopes.Grows m₁.scopes
  names {i : ScopeId} : i < m.scopes.count → (declaring → i ≠ m.current) →
    m₁.scopes.namesAt i = m.scopes.namesAt i

namespace Machine.Frame

variable {declaring declaring' : Prop} {m m₁ m₂ : Machine}

/-- Where the store and the current scope are the same, so are the names. -/
theorem of_eq (hscopes : m₁.scopes = m.scopes) (hcurrent : m₁.current = m.current) :
    m.Frame declaring m₁ where
  current := hcurrent
  grows := hscopes ▸ .refl _
  names _ _ := by rw [hscopes]

/-- No run at all. -/
theorem refl (m : Machine) : m.Frame declaring m := of_eq rfl rfl

/-- Two runs in a row. -/
theorem trans (h : m.Frame declaring m₁) (h' : m₁.Frame declaring m₂) :
    m.Frame declaring m₂ where
  current := h'.current.trans h.current
  grows := h.grows.trans h'.grows
  names := by
    intro i hi hne
    have hsecond := h'.names (Nat.lt_of_lt_of_le hi h.grows.count) (h.current ▸ hne)
    exact hsecond.trans (h.names hi hne)

/-- A run that may declare fewer names leaves at least what one that may declare more does. -/
theorem mono (hle : declaring → declaring') (h : m.Frame declaring m₁) :
    m.Frame declaring' m₁ where
  current := h.current
  grows := h.grows
  names hi hne := h.names hi fun hd => hne (hle hd)

/-- A host function touches no scope. -/
theorem native (op : Native) (args : List Value) (m : Machine) :
    m.Frame declaring (op.run args m).2 := by
  obtain ⟨input, output, generator, clock, hrun⟩ := Native.run_machine op args m
  rw [hrun]
  exact of_eq rfl rfl

/-- Assigning to a name declares none. -/
theorem assignAt (m : Machine) (owner : ScopeId) (name : Symbol) (v : Value) :
    m.Frame declaring (m.assignAt owner name v) where
  current := rfl
  grows := Scopes.grows_modify (f := fun scope => scope.assign name v) (fun _ => rfl) owner
  names _ _ := Scopes.namesAt_assignAt m.scopes owner _ name v

/-- Declaring a name is for runs that may declare. -/
theorem define (hd : declaring) (m : Machine) (name : Symbol) (v : Value) :
    m.Frame declaring (m.define name v) where
  current := rfl
  grows := Scopes.grows_define m.current name v
  names _ hne := Scopes.namesAt_define_of_ne (hne hd) name v

/-- The way back from a new scope. What was declared there is in none of the old ones. -/
theorem leave {parent : ScopeId} {params : List Token} {args : List Value}
    (h : (m.inside parent params args).Frame declaring m₁) :
    m.Frame declaring' (m₁.enter m.current) where
  current := rfl
  grows := (m.grows_inside parent params args).trans h.grows
  names := by
    intro i hi _
    -- The run inside may declare, but its place is the new scope.
    have hlt := Nat.lt_of_lt_of_le hi (m.grows_inside parent params args).count
    have hkept := h.names hlt fun _ => Nat.ne_of_lt hi
    exact hkept.trans (Scopes.namesAt_eq_of_at? (Machine.at?_inside hi parent params args))

end Machine.Frame

/-! ### Outcomes -/

/-- However the run ends, this is what it leaves of the names. -/
def Outcome.Framed {α : Type} (declaring : Prop) (m : Machine) (x : Outcome α) : Prop :=
  x.Meets (fun _ => m.Frame declaring) (m.Frame declaring)

namespace Outcome

variable {α β : Type} {declaring : Prop} {m m₁ : Machine}

/-- An operation ends where it starts. -/
theorem framed_ofExcept (token : Token) (x : Except Fault α) (h : m.Frame declaring m₁) :
    (Outcome.ofExcept token x m₁).Framed declaring m := by
  cases x with
  | ok v => exact h
  | error fault => exact h

/-- A change that keeps the frame, and a run behind it. -/
theorem Framed.after {x : Outcome α} (h : m.Frame declaring m₁) (hx : x.Framed declaring m₁) :
    x.Framed declaring m := by
  cases x with
  | done v m₂ => exact h.trans hx
  | failed e m₂ => exact h.trans hx
  | starved => trivial

/-- The rule for two steps in a row. -/
theorem Framed.andThen {x : Outcome α} {next : α → Machine → Outcome β}
    (hx : x.Framed declaring m) (hnext : ∀ v m₁, (next v m₁).Framed declaring m₁) :
    (x.andThen next).Framed declaring m :=
  meets_andThen hx (fun _ h => h) fun v m₁ h => Framed.after h (hnext v m₁)

/-- As for frames: the run may be allowed to declare more. -/
theorem Framed.mono {declaring' : Prop} {x : Outcome α} (hle : declaring → declaring')
    (hx : x.Framed declaring m) : x.Framed declaring' m := by
  cases x with
  | done v m₁ => exact Machine.Frame.mono hle hx
  | failed e m₁ => exact Machine.Frame.mono hle hx
  | starved => trivial

/-- The way back from a new scope, however the run in it ends. -/
theorem Framed.leave {declaring' : Prop} {parent : ScopeId} {params : List Token}
    {args : List Value} {x : Outcome α} (hx : x.Framed declaring (m.inside parent params args)) :
    (x.mapMachine (·.enter m.current)).Framed declaring' m := by
  cases x with
  | done v m₁ => exact Machine.Frame.leave hx
  | failed e m₁ => exact Machine.Frame.leave hx
  | starved => trivial

/-- What an outcome says of its machine, for the machine at hand. -/
theorem Framed.frame {x : Outcome α} (hx : x.Framed declaring m) (hm₁ : m₁ ∈ x.machine?) :
    m.Frame declaring m₁ := by
  cases x with
  | done v m₂ =>
      cases hm₁
      exact hx
  | failed e m₂ =>
      cases hm₁
      exact hx
  | starved => cases hm₁

end Outcome

/-! ### The evaluator -/

open Machine (Frame)

mutual

/-- An expression declares no name in the scope that it is evaluated in. The induction is on the
steps, and only a call leaves this scope. -/
theorem eval_framed {declaring : Prop} : ∀ n e m, (eval n e m).Framed declaring m
  | 0, _, _ => trivial
  | n + 1, e, m => by
    cases e with
    | literal value => exact Frame.refl m
    | group inner => exact eval_framed n inner m
    | unary op operand =>
        exact (eval_framed n operand m).andThen fun v m₁ => Outcome.framed_ofExcept _ _ (.refl m₁)
    | binary left op right =>
        refine (eval_framed n left m).andThen fun v m₁ => ?_
        exact (eval_framed n right m₁).andThen fun w m₂ => Outcome.framed_ofExcept _ _ (.refl m₂)
    | logical left op right =>
        refine (eval_framed n left m).andThen fun v m₁ => ?_
        split
        · exact Frame.refl m₁
        · exact eval_framed n right m₁
    | get name =>
        simp only [eval]
        split
        · exact Frame.refl m
        · exact Frame.refl m
    | set name value =>
        refine (eval_framed n value m).andThen fun v m₁ => ?_
        split
        case h_1 owner _ => exact Frame.assignAt m₁ owner name.lexeme v
        case h_2 => exact Frame.refl m₁
    | call callee paren args =>
        refine (eval_framed n callee m).andThen fun v m₁ => ?_
        refine (evalAll_framed n args m₁).andThen fun vs m₂ => ?_
        cases v with
        | callable f =>
            dsimp only
            split
            · have hnoted : m₂.Frame declaring (m₂.note (.calling f.text vs.length)) :=
                .of_eq rfl rfl
              exact .after hnoted (invoke_framed n f paren vs _)
            -- The call runs in scopes of its own, so its frame is that of a run that declares
            -- nothing here.
            · exact Frame.refl m₂
        | nil | bool | number | string => exact Frame.refl m₂

/-- Several expressions declare no name. -/
theorem evalAll_framed {declaring : Prop} : ∀ n es m, (evalAll n es m).Framed declaring m
  | 0, _, _ => trivial
  | _ + 1, [], m => Frame.refl m
  | n + 1, e :: es, m => by
    refine (eval_framed n e m).andThen fun v m₁ => ?_
    exact (evalAll_framed n es m₁).andThen fun vs m₂ => Frame.refl m₂

/-- A call declares none where it stands. Its parameters and variables are names of a new scope. -/
theorem invoke_framed {declaring : Prop} : ∀ n f paren args m,
    (invoke n f paren args m).Framed declaring m
  | 0, _, _, _, _ => trivial
  | _ + 1, ⟨_, .native _ _ op⟩, paren, args, m =>
    Outcome.framed_ofExcept paren _ (.native op args m)
  | n + 1, ⟨_, .user decl closure⟩, _, args, m =>
    (execIn_framed n closure decl.params args decl.body m).andThen fun _ m₁ => Frame.refl m₁

/-- Whatever a body declares in its new scope, the scopes that were there keep their names. -/
theorem execIn_framed {declaring : Prop} : ∀ n parent params args body (m : Machine),
    (execIn n m.scopes.count body (m.opened parent params args)).Framed declaring m
  | 0, _, _, _, _, _ => trivial
  | n + 1, parent, params, args, body, m => by
    rw [Machine.execIn_opened]
    exact (execAll_framed n body (m.inside parent params args)).leave

/-- Statements in a row may declare names where they run. -/
theorem execAll_framed : ∀ n body m, (execAll n body m).Framed True m
  | 0, _, _ => trivial
  | _ + 1, [], m => Frame.refl m
  | n + 1, s :: rest, m => by
    refine ((exec_framed n s m).mono fun _ => trivial).andThen fun flow m₁ => ?_
    cases flow with
    | normal => exact execAll_framed n rest m₁
    | returned v => exact Frame.refl m₁

/-- A statement declares a name where it stands only if it is not quiet. -/
theorem exec_framed : ∀ n s m, (exec n s m).Framed (¬ s.Quiet) m
  | 0, _, _ => trivial
  | n + 1, s, m => by
    cases s with
    | expression value => exact (eval_framed n value m).andThen fun v m₁ => Frame.refl m₁
    | declare name init =>
        exact (evalOptional_framed n init m).andThen fun v m₁ => Frame.define nofun m₁ _ v
    | block body => exact execIn_framed n m.current [] [] body m
    | branch condition yes no =>
        refine (eval_framed n condition m).andThen fun v m₁ => ?_
        -- A quiet statement has quiet branches, so a branch that is not quiet may declare.
        split
        · refine (exec_framed n yes m₁).mono fun hyes hquiet => hyes ?_
          cases hquiet with
          | branch hyes _ => exact hyes
          | branchOnly hyes => exact hyes
        · cases no with
          | none => exact Frame.refl m₁
          | some no =>
              refine (exec_framed n no m₁).mono fun hno hquiet => hno ?_
              cases hquiet with
              | branch _ hno => exact hno
    | loop condition body =>
        refine (repeatWhile_framed n condition body m).mono fun hbody hquiet => hbody ?_
        cases hquiet with
        | loop hbody => exact hbody
    | function name params body =>
        let noted := m.note (.declaring name.name params.length)
        let made := noted.makeCallable (.user ⟨name, params, body⟩ noted.current)
        exact (Frame.of_eq rfl rfl : m.Frame _ made.2).trans (Frame.define nofun made.2 _ made.1)
    | giveBack word result =>
        exact (evalOptional_framed n result m).andThen fun v m₁ => Frame.refl m₁

/-- A value that may be missing declares no name. -/
theorem evalOptional_framed {declaring : Prop} : ∀ n e m,
    (evalOptional n e m).Framed declaring m
  | 0, _, _ => trivial
  | _ + 1, none, m => Frame.refl m
  | n + 1, some e, m => eval_framed n e m

/-- Rounds of a loop declare a name only if the body is not quiet. -/
theorem repeatWhile_framed : ∀ n condition body m,
    (repeatWhile n condition body m).Framed (¬ body.Quiet) m
  | 0, _, _, _ => trivial
  | n + 1, condition, body, m => by
    refine (eval_framed n condition m).andThen fun v m₁ => ?_
    split
    · refine (exec_framed n body m₁).andThen fun flow m₂ => ?_
      cases flow with
      | normal => exact repeatWhile_framed n condition body m₂
      | returned v => exact Frame.refl m₂
    · exact Frame.refl m₁

end

/-! ### Statements that the parser makes -/

namespace Stmt

/-- The statements in a statement, itself among them. -/
inductive Within (x : Stmt) : Stmt → Prop where
  | self : Within x x
  | part {s part : Stmt} : part ∈ s.parts → Within x part → Within x s

/-- The statement is a declaration of this name. -/
inductive Declares (name : Token) : Stmt → Prop where
  | declare {init : Option Expr} : Declares name (.declare name init)
  | function {params : List Token} {body : List Stmt} :
      Declares name (.function name params body)

/-- The parts of a statement that the parser can make are such statements. -/
theorem Proper.part {s part : Stmt} (h : s.Proper) (hpart : part ∈ s.parts) : part.Proper := by
  cases h with
  | expression | declare | giveBack => cases hpart
  | block hbody => exact hbody part hpart
  | function _ _ hbody => exact hbody part hpart
  | branch _ hyes _ hno _ =>
      rcases List.mem_cons.1 hpart with rfl | hpart
      · exact hyes
      · exact hno part (by simpa using hpart)
  | loop _ hbody _ =>
      cases List.mem_singleton.1 hpart
      exact hbody

/-- So are all statements inside of it, at any depth. -/
theorem Proper.within {x s : Stmt} (h : s.Proper) (hx : x.Within s) : x.Proper := by
  induction hx with
  | self => exact h
  | part hpart _ ih => exact ih (h.part hpart)

/-- What the parser puts under a condition declares nothing, whatever is under it in turn. -/
theorem Proper.quiet {s : Stmt} (h : s.Proper) (hplain : s.declares = false) : s.Quiet := by
  induction h with
  | expression => exact .expression
  | declare | function => cases hplain
  | block => exact .block
  | @branch c yes no _ _ hyes _ hno ihyes ihno =>
      cases no with
      | none => exact .branchOnly (ihyes hyes)
      | some no => exact .branch (ihyes hyes) (ihno no rfl (hno no rfl))
  | loop _ _ hbody ihbody => exact .loop (ihbody hbody)
  | giveBack => exact .giveBack

/-- The parser makes quiet statements and plain declarations. -/
theorem Proper.quiet_or_declares {s : Stmt} (h : s.Proper) :
    s.Quiet ∨ ∃ name, s.Declares name := by
  cases s with
  | declare name init => exact .inr ⟨name, .declare⟩
  | function name params body => exact .inr ⟨name, .function⟩
  | _ => exact .inl (h.quiet rfl)

end Stmt

/-- All that `parse` gives are statements that the parser can make. -/
theorem parse_proper (tokens : List Token) : ∀ s ∈ (parse tokens).program, s.Proper := by
  cases hlast : tokens.getLast? with
  | none => simp [parse, hlast]
  | some last =>
      obtain ⟨c, hc⟩ := parse_eq_of_steps hlast (Nat.le_refl _)
      have hplaced : Cursor.Placed ⟨last, tokens⟩ := by
        intro t ht
        exact Option.some.inj (ht.symm.trans hlast)
      have hreply := (Parser.declarations_keeps (parseSteps tokens) false).reply hplaced trivial
      rw [hc] at hreply
      obtain ⟨-, -, us, -, hproper, -⟩ := hreply
      exact hproper

/-! ### The main statement -/

/-- Every scope that was there binds the names it bound, and every name is seen where it was
seen. Values may be other ones. -/
structure Machine.SameNames (m m₁ : Machine) : Prop where
  current : m₁.current = m.current
  count : m.scopes.count ≤ m₁.scopes.count
  parent {i : ScopeId} : i < m.scopes.count → m₁.scopes.parent? i = m.scopes.parent? i
  names {i : ScopeId} : i < m.scopes.count → m₁.scopes.namesAt i = m.scopes.namesAt i
  seen : m.current < m.scopes.count → ∀ name, m₁.owner? name = m.owner? name

/-- One name is new, and it is in the current scope. -/
structure Machine.OneName (name : Symbol) (m m₁ : Machine) : Prop where
  current : m₁.current = m.current
  fresh : (m.scopes.namesAt m.current).any (· == name) = false
  names : m₁.scopes.namesAt m.current = m.scopes.namesAt m.current ++ [name]
  others {i : ScopeId} : i < m.scopes.count → i ≠ m.current →
    m₁.scopes.namesAt i = m.scopes.namesAt i

namespace Machine.Frame

variable {m m₁ : Machine}

/-- A run that declares nothing. -/
theorem sameNames (h : m.Frame False m₁) : m.SameNames m₁ where
  current := h.current
  count := h.grows.count
  parent := h.grows.parent
  names hi := h.names hi False.elim
  seen hcurrent name := by
    unfold owner?
    rw [h.current]
    exact h.grows.resolve (fun i hi => h.names hi False.elim) name m.current hcurrent

/-- A run that declares only what is declared already. -/
theorem close {declaring : Prop} (h : m.Frame declaring m₁)
    (hsame : m.current < m.scopes.count →
      m₁.scopes.namesAt m.current = m.scopes.namesAt m.current) : m.Frame False m₁ where
  current := h.current
  grows := h.grows
  names := by
    intro i hi _
    by_cases hcurrent : i = m.current
    · rw [hcurrent] at hi ⊢
      exact hsame hi
    · exact h.names hi fun _ => hcurrent

/-- A run that declares nothing, and then a declaration. -/
theorem define_cases (h : m.Frame False m₁) (name : Symbol) (v : Value) :
    m.SameNames (m₁.define name v) ∨ m.OneName name (m₁.define name v) := by
  have hframe : m.Frame True (m₁.define name v) :=
    (h.mono False.elim).trans (.define trivial m₁ name v)
  have hscopes : (m₁.define name v).scopes = m₁.scopes.define m.current name v := by
    rw [← h.current]
    rfl
  by_cases hcurrent : m.current < m.scopes.count
  · have hdefine := Scopes.namesAt_define m₁.scopes m.current name v
    rw [← hscopes, h.names hcurrent False.elim] at hdefine
    rcases hdefine with hsame | ⟨hfresh, hnew⟩
    · exact .inl (hframe.close fun _ => hsame).sameNames
    · exact .inr ⟨hframe.current, hfresh, hnew, fun hi hne => hframe.names hi fun _ => hne⟩
  · exact .inl (hframe.close fun hlt => absurd hlt hcurrent).sameNames

end Machine.Frame

/-- A declaration adds at most its name, and nothing if it fails. -/
theorem Stmt.Declares.exec_meets {s : Stmt} {name : Token} (h : s.Declares name) (n : Nat)
    (m : Machine) : (exec n s m).Meets
      (fun _ m' => m.SameNames m' ∨ m.OneName name.lexeme m') m.SameNames := by
  cases n with
  | zero => trivial
  | succ n =>
      -- A variable is declared behind its value, a function behind the value that it makes. Only in
      -- the first case something may fail before.
      cases h with
      | @declare init =>
          have hinit : (evalOptional n init m).Framed False m := evalOptional_framed n init m
          refine Outcome.meets_andThen hinit (fun _ hm₁ => hm₁.sameNames) ?_
          intro v m₁ hm₁
          exact hm₁.define_cases name.lexeme v
      | @function params body =>
          let noted := m.note (.declaring name.name params.length)
          let made := noted.makeCallable (.user ⟨name, params, body⟩ noted.current)
          have hmade : m.Frame False made.2 := .of_eq rfl rfl
          exact hmade.define_cases name.lexeme made.1

/-- **Only declarations bind names, and only in the current scope.** However it ends, the
evaluation of an expression, a call or a block leaves every scope that was there with the names
it had, and every name is seen where it was seen before. A statement that the parser made does
so too, unless it is itself a declaration: then its name may be new in the current scope, and
that is all. A declaration that fails binds nothing. -/
theorem only_declarations_bind (n : Nat) (m m' : Machine) :
    (∀ e, m' ∈ (eval n e m).machine? → m.SameNames m') ∧
    (∀ f paren args, m' ∈ (invoke n f paren args m).machine? → m.SameNames m') ∧
    (∀ body, m' ∈ (exec n (.block body) m).machine? → m.SameNames m') ∧
    (∀ tokens, ∀ top ∈ (parse tokens).program, ∀ s : Stmt, s.Within top →
      m' ∈ (exec n s m).machine? →
        m.SameNames m' ∨ ∃ name, s.Declares name ∧ m.OneName name.lexeme m') ∧
    ∀ name init error, exec n (.declare name init) m = .failed error m' → m.SameNames m' := by
  -- A quiet statement leaves the frame of a run that may declare nothing.
  have hquiet : ∀ s : Stmt, s.Quiet → m' ∈ (exec n s m).machine? → m.SameNames m' := by
    intro s hs hm'
    exact (((exec_framed n s m).mono fun hloud => hloud hs).frame hm').sameNames
  refine ⟨fun e hm' => ?_, fun f paren args hm' => ?_, fun body => hquiet _ .block, ?_, ?_⟩
  · exact ((eval_framed n e m).frame hm').sameNames
  · exact ((invoke_framed n f paren args m).frame hm').sameNames
  · intro tokens top htop s hs hm'
    have hproper : s.Proper := (parse_proper tokens top htop).within hs
    rcases hproper.quiet_or_declares with hs | ⟨name, hname⟩
    · exact .inl (hquiet s hs hm')
    · have hmeets := hname.exec_meets n m
      cases hx : exec n s m with
      | done flow m₁ =>
          rw [hx] at hm' hmeets
          cases hm'
          exact hmeets.imp_right fun hone => ⟨name, hname, hone⟩
      | failed error m₁ =>
          rw [hx] at hm' hmeets
          cases hm'
          exact .inl hmeets
      | starved =>
          rw [hx] at hm'
          cases hm'
  · intro name init error hfailed
    have hdeclares : (Stmt.declare name init).Declares name := .declare
    have hmeets := hdeclares.exec_meets n m
    rw [hfailed] at hmeets
    exact hmeets

/-- A function that declares a name of its own, and a declaration that calls it. -/
def declaringCall : Program :=
  (parse (scan "fun f() \x7b var y = 1; return y; \x7d var x = f();" (.new 0)).tokens).program

/-- The machine after the function is declared. -/
def beforeCall : Machine :=
  let start := Machine.blank (.ofBytes [] none) (.empty none) (.splitMix 0) (.steady (.ok 0))
  ((execAll 20 (declaringCall.take 1) start).machine?).getD start

/-- The call declares `y` in a scope of its own, and the declaration around it binds `x` in the
current scope and nothing else. -/
theorem only_declarations_bind_call :
    ∃ s ∈ declaringCall, ∃ m' ∈ (exec 20 s beforeCall).machine?,
      (beforeCall.scopes.namesAt 0).map Symbol.name = ["f"] ∧
      (m'.scopes.namesAt 0).map Symbol.name = ["f", "x"] ∧
      (m'.scopes.namesAt 1).map Symbol.name = ["y"] ∧
      ∃ name, s.Declares name ∧ beforeCall.OneName name.lexeme m' := by
  have hbefore : (beforeCall.scopes.namesAt 0).map Symbol.name = ["f"] := by decide +kernel
  have hrun : (declaringCall[1]?.bind fun s => (exec 20 s beforeCall).machine?).map
      (fun m' => ((m'.scopes.namesAt 0).map Symbol.name, (m'.scopes.namesAt 1).map Symbol.name))
      = some (["f", "x"], ["y"]) := by decide +kernel
  obtain ⟨m', hm', hnames⟩ := Option.map_eq_some_iff.1 hrun
  obtain ⟨s, hs, hm'⟩ := Option.bind_eq_some_iff.1 hm'
  obtain ⟨hglobal, hlocal⟩ := Prod.mk.inj hnames
  have hmem : s ∈ declaringCall := List.mem_of_getElem? hs
  have hbind := (only_declarations_bind 20 beforeCall m').2.2.2.1 _ s hmem s .self hm'
  refine ⟨s, hmem, m', hm', hbefore, hglobal, hlocal, hbind.resolve_left fun hsame => ?_⟩
  -- There is a new name in the outermost scope.
  have hkept := hsame.names (i := 0) (by decide +kernel)
  rw [hkept, hbefore] at hglobal
  cases hglobal

end Scriptlet
