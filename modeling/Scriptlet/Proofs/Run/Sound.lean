import Scriptlet.Proofs.Run.Scopes
import Scriptlet.Proofs.Run.Upkeep

/-!
# `Scriptlet.Proofs.Run.Sound`: machines whose scopes are in order

`Machine.Sound K`: the scopes of the machine are nested, the current scope and the outermost
one exist, every function value that is bound anywhere was declared in a scope that exists,
and all names that are bound, or that functions mention, are as `K` says. With nothing asked
of the names the machine is `WellFormed`.

* `soundUpkeep_lawful`: programs keep this, whatever they do, if their own names are as `K`
  says. The scopes that exist go on to exist.
* `Machine.Sound.eval`, `Machine.Sound.exec` and their like: what this comes to for a run that
  is done.
-/

set_option autoImplicit false

namespace Scriptlet

/-! ### Names in trees -/

mutual

/-- The names that an expression mentions. -/
def Expr.names : Expr → List Symbol
  | .literal _ => []
  | .group e => e.names
  | .unary _ e => e.names
  | .binary a _ b => a.names ++ b.names
  | .logical a _ b => a.names ++ b.names
  | .get name => [name.lexeme]
  | .set name e => name.lexeme :: e.names
  | .call f _ args => f.names ++ Expr.namesAll args

/-- The names that several expressions mention. -/
def Expr.namesAll : List Expr → List Symbol
  | [] => []
  | e :: es => e.names ++ Expr.namesAll es

end

mutual

/-- The names that a statement mentions. -/
def Stmt.names : Stmt → List Symbol
  | .expression e => e.names
  | .declare name init => name.lexeme :: init.elim [] Expr.names
  | .block body => Stmt.namesAll body
  | .branch c yes no => c.names ++ (yes.names ++ Stmt.namesOption no)
  | .loop c body => c.names ++ body.names
  | .function name params body => name.lexeme :: (params.map (·.lexeme) ++ Stmt.namesAll body)
  | .giveBack _ result => result.elim [] Expr.names

/-- The names that a statement mentions, if there is one. -/
def Stmt.namesOption : Option Stmt → List Symbol
  | none => []
  | some s => s.names

/-- The names that several statements mention. -/
def Stmt.namesAll : List Stmt → List Symbol
  | [] => []
  | s :: ss => s.names ++ Stmt.namesAll ss

end

/-- Each of several expressions has its names among those of all. -/
theorem Expr.names_subset_all {e : Expr} {es : List Expr} (h : e ∈ es) :
    e.names ⊆ Expr.namesAll es := by
  induction es with
  | nil => cases h
  | cons e' es ih =>
      unfold Expr.namesAll
      rcases List.mem_cons.1 h with rfl | h
      · exact List.subset_append_left _ _
      · exact List.Subset.trans (ih h) (List.subset_append_right _ _)

/-- Each of several statements has its names among those of all. -/
theorem Stmt.names_subset_all {s : Stmt} {ss : List Stmt} (h : s ∈ ss) :
    s.names ⊆ Stmt.namesAll ss := by
  induction ss with
  | nil => cases h
  | cons s' ss ih =>
      unfold Stmt.namesAll
      rcases List.mem_cons.1 h with rfl | h
      · exact List.subset_append_left _ _
      · exact List.Subset.trans (ih h) (List.subset_append_right _ _)

/-- An expression mentions what its parts mention. -/
theorem Expr.names_parts {e part : Expr} (h : part ∈ e.parts) : part.names ⊆ e.names := by
  cases e with
  | literal | get => cases h
  | group inner | unary _ inner | set _ inner =>
      cases List.mem_singleton.1 h
      simp [Expr.names]
  | binary a op b | logical a op b =>
      simp only [Expr.parts, List.mem_cons, List.not_mem_nil, or_false] at h
      rcases h with rfl | rfl <;> simp [Expr.names]
  | call f paren args =>
      rcases List.mem_cons.1 h with rfl | h
      · simp [Expr.names]
      · exact List.Subset.trans (Expr.names_subset_all h) (by simp [Expr.names])

/-- A statement mentions what its parts mention. -/
theorem Stmt.names_parts {s part : Stmt} (h : part ∈ s.parts) : part.names ⊆ s.names := by
  cases s with
  | expression | declare | giveBack => cases h
  | block body =>
      exact List.Subset.trans (Stmt.names_subset_all h) (by simp [Stmt.names, Stmt.parts])
  | function name params body =>
      exact List.Subset.trans (Stmt.names_subset_all h) (by simp [Stmt.names, Stmt.parts])
  | loop c body =>
      cases List.mem_singleton.1 h
      simp [Stmt.names]
  | branch c yes no =>
      rcases List.mem_cons.1 h with rfl | h
      · simp [Stmt.names]
      · cases Option.mem_toList.1 h
        simp [Stmt.names, Stmt.namesOption]

/-- A statement mentions what the expressions in it mention. -/
theorem Stmt.names_exprs {s : Stmt} {e : Expr} (h : e ∈ s.exprs) : e.names ⊆ s.names := by
  cases s with
  | block | function => cases h
  | expression | branch | loop =>
      cases List.mem_singleton.1 h
      simp [Stmt.names]
  | declare name init | giveBack word init =>
      cases Option.mem_toList.1 h
      simp [Stmt.names]

/-! ### Sound machines -/

/-- The function value was declared in one of the first `count` scopes, and the names it
mentions are as `K` says. -/
def Callable.Fits (K : Symbol → Prop) (count : Nat) (f : Callable) : Prop :=
  match f.code with
  | .native _ _ _ => True
  | .user decl closure =>
    closure < count ∧ (∀ p ∈ decl.params, K p.lexeme) ∧
      ∀ s ∈ decl.body, ∀ name ∈ s.names, K name

/-- The same for all values. -/
def Value.Fits (K : Symbol → Prop) (count : Nat) : Value → Prop
  | .callable f => f.Fits K count
  | _ => True

/-- A function that was declared in one of the first scopes was declared in one of more scopes. -/
theorem Callable.Fits.mono {K : Symbol → Prop} {count more : Nat} {f : Callable}
    (h : f.Fits K count) (hle : count ≤ more) : f.Fits K more := by
  obtain ⟨identity, code⟩ := f
  cases code with
  | native => trivial
  | user decl closure => exact ⟨Nat.lt_of_lt_of_le h.1 hle, h.2⟩

/-- So it is with a value. -/
theorem Value.Fits.mono {K : Symbol → Prop} {count more : Nat} {v : Value}
    (h : v.Fits K count) (hle : count ≤ more) : v.Fits K more := by
  cases v with
  | callable f => exact Callable.Fits.mono h hle
  | _ => trivial

/-- The scopes of the machine are in order, and so is everything they hold. -/
structure Machine.Sound (K : Symbol → Prop) (m : Machine) : Prop where
  nested : m.scopes.Nested
  current : m.current < m.scopes.count
  globals : m.globals < m.scopes.count
  holds : m.scopes.Holds K (Value.Fits K m.scopes.count)

/-- The scopes of the machine are in order, whatever the names are. -/
abbrev Machine.WellFormed (m : Machine) : Prop := m.Sound fun _ => True

/-- The machine `m₁` is sound, in the place of `m`, and has all its scopes. -/
structure Machine.Later (K : Symbol → Prop) (m m₁ : Machine) : Prop where
  sound : m₁.Sound K
  current : m₁.current = m.current
  globals : m₁.globals = m.globals
  count : m.scopes.count ≤ m₁.scopes.count

/-- Sound machines stay sound. -/
def soundUpkeep (K : Symbol → Prop) : Upkeep where
  Ready m := m.Sound K
  Change m m₁ := m.Later K m₁
  Holds m f := f.Fits K m.scopes.count
  Evals e := ∀ name ∈ e.names, K name
  Runs s := ∀ name ∈ s.names, K name

/-- A machine without any names is sound. -/
theorem Machine.sound_blank (K : Symbol → Prop) (input : Reader) (output : Sink)
    (generator : Generator) (clock : Clock) :
    (blank input output generator clock).Sound K where
  nested := Scopes.nested_empty.openScope fun _ hparent => nomatch hparent
  current := Nat.one_pos
  globals := Nat.one_pos
  holds := Scopes.holds_empty.openScope none

namespace Machine.Sound

variable {K : Symbol → Prop} {m : Machine}

/-- A machine with the same scopes, in the same place, is as sound. -/
theorem of_eq (h : m.Sound K) {m₁ : Machine} (hscopes : m₁.scopes = m.scopes)
    (hcurrent : m₁.current = m.current) (hglobals : m₁.globals = m.globals) :
    m₁.Sound K := by
  obtain ⟨nested, current, globals, holds⟩ := h
  constructor
  · rwa [hscopes]
  · rwa [hscopes, hcurrent]
  · rwa [hscopes, hglobals]
  · rwa [hscopes]

/-- Notes play no part in soundness. -/
theorem note (h : m.Sound K) (record : Record) : (m.note record).Sound K :=
  h.of_eq rfl rfl rfl

/-- A name may be bound in the current scope. -/
theorem define (h : m.Sound K) {name : Symbol} {v : Value} (hname : K name)
    (hv : v.Fits K m.scopes.count) : (m.define name v).Sound K where
  nested := h.nested.define _ _ _
  current := by simpa [Machine.define] using h.current
  globals := by simpa [Machine.define] using h.globals
  holds := by simpa [Machine.define] using h.holds.define m.current hname hv

/-- A name that is bound may get a value that fits. -/
theorem assignAt (h : m.Sound K) (owner : ScopeId) (name : Symbol) {v : Value}
    (hv : v.Fits K m.scopes.count) : (m.assignAt owner name v).Sound K where
  nested := h.nested.assignAt _ _ _
  current := by simpa [Machine.assignAt] using h.current
  globals := by simpa [Machine.assignAt] using h.globals
  holds := by simpa [Machine.assignAt] using h.holds.assignAt owner name hv

/-- Going into a scope adds this one. -/
theorem count_inside (m : Machine) (parent : ScopeId) (params : List Token)
    (args : List Value) : (m.inside parent params args).scopes.count = m.scopes.count + 1 := by
  simp [inside, Machine.openScope]

/-- The way into a scope inside an existing one. -/
theorem inside (h : m.Sound K) {parent : ScopeId} (hparent : parent < m.scopes.count)
    {params : List Token} {args : List Value} (hparams : ∀ p ∈ params, K p.lexeme)
    (hargs : ∀ v ∈ args, v.Fits K m.scopes.count) : (m.inside parent params args).Sound K := by
  have hle : m.scopes.count ≤ m.scopes.count + 1 := Nat.le_succ _
  constructor
  · exact (h.nested.openScope (by simpa using hparent)).defineAll _ _ _
  · rw [count_inside]
    exact Nat.lt_succ_self _
  · rw [count_inside]
    exact Nat.lt_succ_of_lt h.globals
  · rw [count_inside]
    refine ((h.holds.imp fun v hv => hv.mono hle).openScope _).defineAll _ hparams ?_
    exact fun v hv => (hargs v hv).mono hle

end Machine.Sound

/-- What the upkeep says of a value is that it fits into the scopes that there are. -/
theorem soundUpkeep_holdsValue {K : Symbol → Prop} {m : Machine} {v : Value} :
    (soundUpkeep K).HoldsValue m v ↔ v.Fits K m.scopes.count := by
  cases v <;> rfl

/-- All small steps keep a machine sound, and no scope goes away. For the names it is enough that
those of the program are as `K` says. -/
theorem soundUpkeep_lawful (K : Symbol → Prop) : (soundUpkeep K).Lawful where
  refl h := ⟨h, rfl, rfl, Nat.le_refl _⟩
  trans h h' := ⟨h'.sound, h'.current.trans h.current, h'.globals.trans h.globals,
    Nat.le_trans h.count h'.count⟩
  ready h := h.sound
  holds h hf := hf.mono h.count
  holds_enter h := h
  parts_evals h hpart name hname := h name (Expr.names_parts hpart hname)
  parts_runs h hpart name hname := h name (Stmt.names_parts hpart hname)
  exprs_evals h hpart name hname := h name (Stmt.names_exprs hpart hname)
  body_runs h hs := h.2.2 _ hs
  note record h := ⟨h.note record, rfl, rfl, Nat.le_refl _⟩
  native op args h _ := by
    obtain ⟨input, output, generator, clock, hrun⟩ := Native.run_machine op args _
    rw [hrun]
    exact ⟨h.of_eq rfl rfl rfl, rfl, rfl, Nat.le_refl _⟩
  get h hget := h.holds.get? hget
  assign _ h hv _ :=
    ⟨h.assignAt _ _ (soundUpkeep_holdsValue.1 hv), rfl, rfl, by simp [Machine.assignAt]⟩
  declare hs h hv :=
    ⟨h.define (hs _ (by simp [Stmt.names])) (soundUpkeep_holdsValue.1 hv), rfl, rfl,
      by simp [Machine.define]⟩
  function := by
    intro m name params body hs h
    have hmade : (m.makeCallable (.user ⟨name, params, body⟩ m.current)).2.Sound K :=
      h.of_eq rfl rfl rfl
    -- The new function remembers the current scope, which exists, and its names are names of
    -- the declaration.
    have hfits : Value.Fits K m.scopes.count
        (.callable ⟨m.identities, .user ⟨name, params, body⟩ m.current⟩) := by
      refine ⟨h.current, fun p hp => hs _ ?_, fun s hs' x hx => hs x ?_⟩
      · simp only [Stmt.names, List.mem_cons, List.mem_append, List.mem_map]
        exact .inr (.inl ⟨p, hp, rfl⟩)
      · exact Stmt.names_parts (by simpa [Stmt.parts] using hs') hx
    exact ⟨hmade.define (hs _ (by simp [Stmt.names])) hfits, rfl, rfl,
      by simp [Machine.define, Machine.makeCallable]⟩
  block h := h.inside h.current (by simp) (by simp)
  call h hf hargs := h.inside hf.1 hf.2.1 fun v hv => soundUpkeep_holdsValue.1 (hargs v hv)
  leave := by
    intro m m₁ parent params args h hlater
    -- No scope goes away, so the one to come back to is still there.
    have hcount : m.scopes.count ≤ m₁.scopes.count := by
      have hle := hlater.count
      rw [Machine.Sound.count_inside] at hle
      omega
    have hcurrent : m.current < m₁.scopes.count := Nat.lt_of_lt_of_le h.current hcount
    exact ⟨⟨hlater.sound.nested, hcurrent, hlater.sound.globals, hlater.sound.holds⟩, rfl,
      hlater.globals, hcount⟩

/-! ### Runs that are done -/

namespace Machine.Sound

variable {K : Symbol → Prop} {m m₁ : Machine} {n : Nat}

/-- An expression that is done leaves a sound machine, and a value that fits into it. -/
theorem eval (h : m.Sound K) {e : Expr} (he : ∀ name ∈ e.names, K name) {v : Value}
    (hrun : Scriptlet.eval n e m = .done v m₁) : m.Later K m₁ ∧ v.Fits K m₁.scopes.count := by
  have hkeeps := Upkeep.eval_keeps (soundUpkeep_lawful K) n he h
  rw [hrun] at hkeeps
  exact ⟨hkeeps.1, soundUpkeep_holdsValue.1 hkeeps.2⟩

/-- Several expressions leave values that fit into the last machine, since scopes only come in
addition. -/
theorem evalAll (h : m.Sound K) {es : List Expr} (hes : ∀ e ∈ es, ∀ name ∈ e.names, K name)
    {vs : List Value} (hrun : Scriptlet.evalAll n es m = .done vs m₁) :
    m.Later K m₁ ∧ ∀ v ∈ vs, v.Fits K m₁.scopes.count := by
  have hkeeps := Upkeep.evalAll_keeps (soundUpkeep_lawful K) n hes h
  rw [hrun] at hkeeps
  exact ⟨hkeeps.1, fun v hv => soundUpkeep_holdsValue.1 (hkeeps.2 v hv)⟩

/-- A value that may be missing. -/
theorem evalOptional (h : m.Sound K) {e : Option Expr}
    (he : ∀ e' ∈ e, ∀ name ∈ e'.names, K name) {v : Value}
    (hrun : Scriptlet.evalOptional n e m = .done v m₁) : m.Later K m₁ := by
  have hkeeps := Upkeep.evalOptional_keeps (soundUpkeep_lawful K) n he h
  rw [hrun] at hkeeps
  exact hkeeps.1

/-- A statement that is done leaves a sound machine. -/
theorem exec (h : m.Sound K) {s : Stmt} (hs : ∀ name ∈ s.names, K name) {flow : Flow}
    (hrun : Scriptlet.exec n s m = .done flow m₁) : m.Later K m₁ := by
  have hkeeps := Upkeep.exec_keeps (soundUpkeep_lawful K) n hs h
  rw [hrun] at hkeeps
  exact hkeeps.1

end Machine.Sound

end Scriptlet
