import Scriptlet.Proofs.Lexical.Lexicon
import Scriptlet.Proofs.Run.Sound

/-!
# `Scriptlet.Proofs.ByText.Scopes`: scopes keyed by the texts of names

Scopes keep symbols, which are compared by the number they were issued under. Here are scopes
that keep texts and compare texts, and no symbol in them. The other things that a running
program sees are those of `Scriptlet.Machine`.

`Scopes.byText` forgets the symbols of a store and keeps what they spell. If the keys of the
store and the name that is asked for are symbols that differ exactly when their texts do
(`TellsApart`), then both stores answer alike and change alike: `get?_byText`,
`resolve_byText`, `byText_define`, `byText_assignAt`.
-/

set_option autoImplicit false

namespace Scriptlet

/-! ### The store -/

namespace ByText

/-- One scope: the scope around it, and what it binds itself. -/
structure Scope where
  parent : Option ScopeId
  bindings : List (String × Value)

namespace Scope

/-- The value bound to a text in this very scope. -/
def find? (s : Scope) (name : String) : Option Value := s.bindings.lookup name

/-- Whether this very scope binds a text. -/
def binds (s : Scope) (name : String) : Bool := (s.find? name).isSome

/-- Bindings in which every binding of a text has a new value. -/
def rebind (name : String) (value : Value) (bindings : List (String × Value)) :
    List (String × Value) :=
  bindings.map fun binding => (binding.1, if binding.1 = name then value else binding.2)

/-- Gives a text its value in this scope, whether it had one or not. -/
def define (s : Scope) (name : String) (value : Value) : Scope :=
  { s with bindings :=
      if s.binds name then rebind name value s.bindings else s.bindings ++ [(name, value)] }

/-- Gives a text of this scope a new value. -/
def assign (s : Scope) (name : String) (value : Value) : Scope :=
  { s with bindings := rebind name value s.bindings }

end Scope

/-- All scopes opened so far; a scope's number is its place. -/
structure Scopes where
  cells : Array Scope

namespace Scopes

/-- No scopes. -/
def empty : Scopes := ⟨#[]⟩

/-- Opens a scope without bindings. -/
def openScope (s : Scopes) (parent : Option ScopeId) : ScopeId × Scopes :=
  (s.cells.size, ⟨s.cells.push ⟨parent, []⟩⟩)

/-- The nearest scope that binds a text, from the scope `id` outwards. -/
def resolve (s : Scopes) (name : String) (id : ScopeId) : Option ScopeId :=
  match s.cells[id]? with
  | none => none
  | some scope =>
    if scope.binds name then some id
    else
      match scope.parent with
      | none => none
      | some parent => if parent < id then resolve s name parent else none
termination_by id

/-- The value of a text, seen from the scope `id`. -/
def get? (s : Scopes) (id : ScopeId) (name : String) : Option Value := do
  let owner ← s.resolve name id
  let scope ← s.cells[owner]?
  scope.find? name

/-- Binds a text in the scope `id`, in place of any value it has there. -/
def define (s : Scopes) (id : ScopeId) (name : String) (value : Value) : Scopes :=
  ⟨s.cells.modify id fun scope => scope.define name value⟩

/-- Gives a text of the scope `owner` a new value. -/
def assignAt (s : Scopes) (owner : ScopeId) (name : String) (value : Value) : Scopes :=
  ⟨s.cells.modify owner fun scope => scope.assign name value⟩

/-- Binds parameters to arguments in the scope `id`. -/
def defineAll (s : Scopes) (id : ScopeId) (params : List Token) (args : List Value) : Scopes :=
  (params.zip args).foldl (fun s pair => s.define id pair.1.name pair.2) s

/-- The number of texts that the scope `id` binds itself. -/
def size (s : Scopes) (id : ScopeId) : Nat :=
  (s.cells[id]?.map fun scope => scope.bindings.length).getD 0

end Scopes

end ByText

/-! ### Forgetting symbols -/

/-- The scope without its symbols. -/
def Scope.byText (s : Scope) : ByText.Scope :=
  ⟨s.parent, s.bindings.map fun binding => (binding.1.name, binding.2)⟩

/-- The store without its symbols. -/
def Scopes.byText (s : Scopes) : ByText.Scopes := ⟨s.cells.map Scope.byText⟩

/-- Symbols as `K` says are equal exactly when they spell the same. -/
def TellsApart (K : Symbol → Prop) : Prop :=
  ∀ a b, K a → K b → ((a == b) = true ↔ a.name = b.name)

/-- The symbols that a lexicon shares are such symbols. -/
theorem Lexicon.Knows.tellsApart {words : List Keyword} {l : Lexicon} (h : l.Knows words) :
    TellsApart (· ∈ l.interned) :=
  fun _ _ ha hb => h.beq_iff ha hb

namespace Scope

variable {K : Symbol → Prop} {name : Symbol}

/-- All bindings have keys as `K` says. -/
def Keyed (K : Symbol → Prop) (bindings : List (Symbol × Value)) : Prop :=
  ∀ binding ∈ bindings, K binding.1

/-- Looking up a text finds what looking up the symbol finds. At each binding the comparison comes
out the same. -/
theorem lookup_byText (hK : TellsApart K) (hname : K name) {bindings : List (Symbol × Value)}
    (h : Keyed K bindings) :
    (bindings.map fun binding => (binding.1.name, binding.2)).lookup name.name =
      (bindings.find? fun binding => binding.1 == name).map (·.2) := by
  induction bindings with
  | nil => rfl
  | cons binding bindings ih =>
      have ih := ih fun b hb => h b (List.mem_cons_of_mem _ hb)
      have hkey := hK binding.1 name (h binding List.mem_cons_self) hname
      rw [List.map_cons, List.lookup_cons, List.find?_cons, ih]
      cases hbeq : binding.1 == name with
      | true =>
          have htext : (name.name == binding.1.name) = true := beq_iff_eq.2 (hkey.1 hbeq).symm
          rw [htext]
          rfl
      | false =>
          have htext : (name.name == binding.1.name) = false := by
            rw [beq_eq_false_iff_ne]
            intro heq
            rw [hkey.2 heq.symm] at hbeq
            cases hbeq
          rw [htext]

/-- A scope has the same value for a name by text. -/
theorem find?_byText (hK : TellsApart K) (hname : K name) {s : Scope}
    (h : Keyed K s.bindings) : s.byText.find? name.name = s.find? name :=
  lookup_byText hK hname h

/-- So it binds the same names. -/
theorem binds_byText (hK : TellsApart K) (hname : K name) {s : Scope}
    (h : Keyed K s.bindings) : s.byText.binds name.name = s.binds name := by
  unfold ByText.Scope.binds binds
  rw [find?_byText hK hname h, find?, Option.isSome_map, List.isSome_find?]

/-- Every binding of a name gets the new value, by text as by symbol. -/
theorem rebind_byText (hK : TellsApart K) (hname : K name) (value : Value)
    {bindings : List (Symbol × Value)} (h : Keyed K bindings) :
    (rebind name value bindings).map (fun binding => (binding.1.name, binding.2)) =
      ByText.Scope.rebind name.name value
        (bindings.map fun binding => (binding.1.name, binding.2)) := by
  unfold rebind ByText.Scope.rebind
  rw [List.map_map, List.map_map]
  refine List.map_congr_left fun binding hbinding => ?_
  have hkey := hK binding.1 name (h binding hbinding) hname
  by_cases hbeq : (binding.1 == name) = true
  · simp [hbeq, hkey.1 hbeq]
  · simp [hbeq, mt hkey.2 hbeq]

/-- Assigning in a scope, without the symbols. -/
theorem byText_assign (hK : TellsApart K) (hname : K name) (value : Value) {s : Scope}
    (h : Keyed K s.bindings) :
    (s.assign name value).byText = s.byText.assign name.name value := by
  unfold assign ByText.Scope.assign byText
  rw [rebind_byText hK hname value h]

/-- Defining in a scope, without the symbols. Whether the name is new comes out the same. -/
theorem byText_define (hK : TellsApart K) (hname : K name) (value : Value) {s : Scope}
    (h : Keyed K s.bindings) :
    (s.define name value).byText = s.byText.define name.name value := by
  have hbinds := binds_byText hK hname h
  unfold define ByText.Scope.define
  rw [hbinds]
  split
  · exact congrArg _ (rebind_byText hK hname value h)
  · simp [byText]

end Scope

namespace Scopes

variable {K : Symbol → Prop} {V : Value → Prop} {name : Symbol} {s : Scopes}

/-- In a store whose names are as `K` says, so are those of each scope. -/
theorem Holds.keyed (h : s.Holds K V) {id : ScopeId} {scope : Scope}
    (hscope : s.cells[id]? = some scope) : Scope.Keyed K scope.bindings :=
  fun binding hbinding => (h id scope hscope binding hbinding).1

/-- The scopes without symbols are in the same places. -/
theorem getElem?_byText (s : Scopes) (id : ScopeId) :
    s.byText.cells[id]? = (s.cells[id]?).map Scope.byText := by
  simp [byText]

/-- A scope that is opened has no symbols to forget. -/
theorem byText_openScope (s : Scopes) (parent : Option ScopeId) :
    s.byText.openScope parent = ((s.openScope parent).1, (s.openScope parent).2.byText) := by
  simp [byText, ByText.Scopes.openScope, openScope, Scope.byText]

/-- Each scope has as many bindings as before. -/
theorem size_byText (s : Scopes) (id : ScopeId) : s.byText.size id = s.size id := by
  unfold ByText.Scopes.size size
  rw [getElem?_byText]
  cases s.cells[id]? <;> simp [Scope.byText]

/-- Both stores find the same scope. -/
theorem resolve_byText (hK : TellsApart K) (hname : K name) (h : s.Holds K V) (id : ScopeId) :
    s.byText.resolve name.name id = s.resolve name id := by
  -- On the scope: the search goes on in an older one.
  induction id using Nat.strongRecOn with
  | ind id ih =>
      rw [ByText.Scopes.resolve, resolve, getElem?_byText]
      cases hscope : s.cells[id]? with
      | none => rfl
      | some scope =>
          simp only [Option.map_some]
          rw [Scope.binds_byText hK hname (h.keyed hscope)]
          split
          · rfl
          · show (match scope.parent with
              | none => none
              | some parent => if parent < id then s.byText.resolve name.name parent else none) = _
            cases scope.parent with
            | none => rfl
            | some parent =>
                dsimp only
                split
                case isTrue hlt => exact ih parent hlt
                case isFalse => rfl

/-- Both stores have the same value for a name. -/
theorem get?_byText (hK : TellsApart K) (hname : K name) (h : s.Holds K V) (id : ScopeId) :
    s.byText.get? id name.name = s.get? id name := by
  unfold ByText.Scopes.get? get?
  rw [resolve_byText hK hname h]
  cases s.resolve name id with
  | none => rfl
  | some owner =>
      simp only [Option.bind_eq_bind, Option.bind_some]
      rw [getElem?_byText]
      cases howner : s.cells[owner]? with
      | none => rfl
      | some scope => exact Scope.find?_byText hK hname (h.keyed howner)

/-- A change to one scope, with symbols and without. -/
theorem byText_modify (h : s.Holds K V) (id : ScopeId) {f : Scope → Scope}
    {g : ByText.Scope → ByText.Scope}
    (hfg : ∀ scope, Scope.Keyed K scope.bindings → (f scope).byText = g scope.byText) :
    (Scopes.mk (s.cells.modify id f)).byText = ⟨s.byText.cells.modify id g⟩ := by
  unfold byText
  congr 1
  refine Array.ext_getElem? fun i => ?_
  rw [Array.getElem?_map, Array.getElem?_modify, Array.getElem?_modify, Array.getElem?_map]
  split
  · cases hscope : s.cells[i]? with
    | none => rfl
    | some scope => simp [hfg scope (h.keyed hscope)]
  · rfl

/-- Defining a name, without the symbols. -/
theorem byText_define (hK : TellsApart K) (hname : K name) (h : s.Holds K V) (id : ScopeId)
    (value : Value) : (s.define id name value).byText = s.byText.define id name.name value :=
  byText_modify h id fun _ hkeyed => Scope.byText_define hK hname value hkeyed

/-- Assigning to a name, without the symbols. -/
theorem byText_assignAt (hK : TellsApart K) (hname : K name) (h : s.Holds K V)
    (owner : ScopeId) (value : Value) :
    (s.assignAt owner name value).byText = s.byText.assignAt owner name.name value :=
  byText_modify h owner fun _ hkeyed => Scope.byText_assign hK hname value hkeyed

/-- Binding parameters one after the other, without the symbols. The store stays as it has to be
behind each of them. -/
theorem byText_defineAll (hK : TellsApart K) {params : List Token}
    (hparams : ∀ p ∈ params, K p.lexeme) {args : List Value} (h : s.Holds K fun _ => True)
    (id : ScopeId) :
    (s.defineAll id params args).byText = s.byText.defineAll id params args := by
  induction params generalizing s args with
  | nil => rfl
  | cons param params ih =>
      cases args with
      | nil => rfl
      | cons arg args =>
          have hparam := hparams param List.mem_cons_self
          have hdefine := byText_define hK hparam h id arg
          have hlater : (s.define id param.lexeme arg).Holds K fun _ => True :=
            h.define id hparam trivial
          show ((s.define id param.lexeme arg).defineAll id params args).byText = _
          rw [ih (fun p hp => hparams p (List.mem_cons_of_mem _ hp)) hlater, hdefine]
          rfl

end Scopes

end Scriptlet
