import Mathlib.Data.Finmap
import Scriptlet.Proofs.Run.Declaring
import Scriptlet.Proofs.Run.Rooted

/-!
# `Scriptlet.Proofs.Run.Environments`: scopes are chains of finite maps

Scopes share the scopes around them. What is assigned through one scope is seen through all scopes
inside the one that holds the name, and a name that is bound further inside stays as it was. The
reference for this is a `Forest`: each environment in it is a finite map and a link to its parent,
which is made once and never changes. A name is looked for along the chain of these links
(`Forest.chain`).

A store of scopes is asked to open scopes, to bind names, to look them up and to assign to them
(`Scopes.Request`). It answers as the forest does, whatever it was asked before:

* `Scopes.serve_forest`: one request.
* `Scopes.serveAll_forest`: any row of requests.
* `Scopes.ChainLaws`: what looking up, assigning and binding do, said of the store itself.
* `environments_are_chains_of_maps`: both together, and that programs leave names to the store.
-/

set_option autoImplicit false

namespace Scriptlet

/-! ### Names as keys -/

namespace Symbol

/-- What makes a symbol this symbol: its number, and the lexicon that issued it. -/
def issue (s : Symbol) : Nat × Nat := (s.serial, s.lexicon)

/-- Comparing symbols is comparing what makes them these symbols. Their names play no part. -/
theorem beq_eq_decide_issue (a b : Symbol) : (a == b) = decide (a.issue = b.issue) := by
  rw [Bool.eq_iff_iff, beq_iff, decide_eq_true_iff]
  exact Prod.mk_inj.symm

/-- Every key is the key of a symbol. -/
theorem exists_issue (key : Nat × Nat) : ∃ s : Symbol, s.issue = key :=
  ⟨⟨key.2, key.1, ""⟩, rfl⟩

end Symbol

/-! ### One scope -/

namespace Scope

/-- Setting the value of a name in a list of bindings changes what is found under this name, and
only if it was found there before. -/
theorem find?_rebind (name x : Symbol) (v : Value) (bindings : List (Symbol × Value)) :
    ((rebind name v bindings).find? fun b => b.1 == x).map (·.2)
      = if x.issue = name.issue then (bindings.find? fun b => b.1 == x).map fun _ => v
        else (bindings.find? fun b => b.1 == x).map (·.2) := by
  induction bindings with
  | nil => simp [rebind]
  | cons b bindings ih =>
      -- Changing a binding keeps its key, so the search stops at the same binding as before.
      have hkey : (if b.1 == name then (b.1, v) else b).1 = b.1 := by split <;> rfl
      simp only [rebind, List.map_cons, List.find?_cons, hkey]
      by_cases hx : b.1.issue = x.issue
      · simp only [Symbol.beq_eq_decide_issue, hx]
        by_cases hname : x.issue = name.issue <;> simp [hname]
      · simpa only [Symbol.beq_eq_decide_issue, hx, decide_false, rebind] using ih

/-- The same symbol finds the same value. -/
theorem find?_congr (scope : Scope) {x y : Symbol} (h : x.issue = y.issue) :
    scope.find? x = scope.find? y := by
  simp only [find?, Symbol.beq_eq_decide_issue, h]

/-- After an assignment to a name that the scope binds, the name has its new value, and the other
names have theirs. -/
theorem find?_assign {scope : Scope} {name : Symbol} (h : (scope.find? name).isSome)
    (v : Value) (x : Symbol) :
    (scope.assign name v).find? x = if x.issue = name.issue then some v else scope.find? x := by
  rw [find?, assign, find?_rebind]
  split
  case isTrue hx =>
    obtain ⟨w, hw⟩ := Option.isSome_iff_exists.1 h
    rw [← scope.find?_congr hx] at hw
    obtain ⟨b, hb, -⟩ := Option.map_eq_some_iff.1 hw
    rw [hb]
    rfl
  case isFalse => rfl

/-- After a definition, the name has its new value, whether the scope bound it before or not. -/
theorem find?_define (scope : Scope) (name : Symbol) (v : Value) (x : Symbol) :
    (scope.define name v).find? x = if x.issue = name.issue then some v else scope.find? x := by
  unfold define
  split
  case isTrue hbinds =>
    rw [binds_eq_isSome] at hbinds
    exact find?_assign hbinds v x
  case isFalse hbinds =>
    have hnone : scope.find? name = none := by
      rw [binds_eq_isSome] at hbinds
      simpa using hbinds
    rw [find?, Option.map_eq_none_iff] at hnone
    simp only [find?, List.find?_append, Symbol.beq_eq_decide_issue] at hnone ⊢
    by_cases hx : x.issue = name.issue
    · simp [hx, hnone]
    · simp [hx, Ne.symm hx]

/-- The scope binds each name once. -/
def Distinct (scope : Scope) : Prop := (scope.names.map Symbol.issue).Nodup

/-- An assignment binds no new names. -/
theorem Distinct.assign {scope : Scope} (h : scope.Distinct) (name : Symbol) (v : Value) :
    (scope.assign name v).Distinct := by
  unfold Distinct
  rwa [names_assign]

/-- A definition binds a new name only if the scope does not bind it already. -/
theorem Distinct.define {scope : Scope} (h : scope.Distinct) (name : Symbol) (v : Value) :
    (scope.define name v).Distinct := by
  unfold Distinct
  rw [names_define]
  split
  · exact h
  case isFalse hnew =>
    rw [List.map_append, List.nodup_append]
    refine ⟨h, List.nodup_singleton _, ?_⟩
    intro key hkey key' hkey' heq
    rw [List.map_singleton, List.mem_singleton] at hkey'
    obtain ⟨x, hx, hxkey⟩ := List.mem_map.1 hkey
    refine hnew (List.any_eq_true.2 ⟨x, hx, ?_⟩)
    rw [Symbol.beq_eq_decide_issue, decide_eq_true_iff, hxkey, heq, hkey']

end Scope

/-! ### The reference -/

/-- An environment: a finite map, and the environment that it was made in. -/
structure Environment where
  parent : Option ScopeId
  values : Finmap fun _ : Nat × Nat => Value

/-- Environments by number. -/
abbrev Forest := List Environment

namespace Scopes

/-- What can be asked of a store of scopes. -/
inductive Request where
  | new
  | child (id : ScopeId)
  | define (id : ScopeId) (name : Symbol) (v : Value)
  | get (id : ScopeId) (name : Token)
  | assign (id : ScopeId) (name : Token) (v : Value)
  | size (id : ScopeId)

/-- What is answered. -/
inductive Response where
  | opened (id : ScopeId)
  | done
  | value (v : Value)
  | size (n : Nat)
  | error (e : RuntimeError)

/-- The answer to a name that is not bound. -/
def Response.undefined (name : Token) : Response := .error ⟨name, .undefinedVariable name.name⟩

/-- A store answers a request. -/
def serve (s : Scopes) : Request → Response × Scopes
  | .new => ((.opened (s.openScope none).1), (s.openScope none).2)
  | .child id => ((.opened (s.openScope (some id)).1), (s.openScope (some id)).2)
  | .define id name v => (.done, s.define id name v)
  | .get id name => (((s.get? id name.lexeme).map Response.value).getD (.undefined name), s)
  | .assign id name v =>
    match s.assign? id name.lexeme v with
    | some s' => (.done, s')
    | none => (.undefined name, s)
  | .size id => (.size (s.size id), s)

end Scopes

namespace Forest

open Scopes (Request Response)

/-- The chain of an environment: the environment itself, its parent, and so on outwards. Parents
are older, so that the chain of the environment `e` ends within `e + 1` steps. -/
def chain (f : Forest) : Nat → ScopeId → List ScopeId
  | 0, _ => []
  | n + 1, e =>
    match f[e]?.bind Environment.parent with
    | none => [e]
    | some parent => e :: chain f n parent

/-- The value that an environment itself holds. -/
def lookup (f : Forest) (key : Nat × Nat) (e : ScopeId) : Option Value :=
  f[e]?.bind fun env => env.values.lookup key

/-- Sets a key in one environment. -/
def put (f : Forest) (e : ScopeId) (key : Nat × Nat) (v : Value) : Forest :=
  f.modify e fun env => { env with values := env.values.insert key v }

/-- The value in the nearest environment on the chain that holds the key. -/
def get? (f : Forest) (e : ScopeId) (key : Nat × Nat) : Option Value :=
  (f.chain (e + 1) e).findSome? (f.lookup key)

/-- The nearest environment on the chain that holds the key. -/
def owner? (f : Forest) (e : ScopeId) (key : Nat × Nat) : Option ScopeId :=
  (f.chain (e + 1) e).find? fun i => (f.lookup key i).isSome

/-- The number of keys that an environment itself holds. -/
def size (f : Forest) (e : ScopeId) : Nat := (f[e]?.map fun env => env.values.keys.card).getD 0

/-- A forest answers a request. -/
def serve (f : Forest) : Request → Response × Forest
  | .new => (.opened f.length, f ++ [⟨none, ∅⟩])
  | .child id => (.opened f.length, f ++ [⟨some id, ∅⟩])
  | .define id name v => (.done, f.put id name.issue v)
  | .get id name => (((f.get? id name.lexeme.issue).map Response.value).getD (.undefined name), f)
  | .assign id name v =>
    match f.owner? id name.lexeme.issue with
    | some owner => (.done, f.put owner name.lexeme.issue v)
    | none => (.undefined name, f)
  | .size id => (.size (f.size id), f)

/-- The answers to a row of requests, and the forest after them. -/
def serveAll (f : Forest) : List Request → List Response × Forest
  | [] => ([], f)
  | request :: requests =>
    let (reply, f) := f.serve request
    let (replies, f) := serveAll f requests
    (reply :: replies, f)

end Forest

namespace Scopes

/-- The answers to a row of requests, and the store after them. -/
def serveAll (s : Scopes) : List Request → List Response × Scopes
  | [] => ([], s)
  | request :: requests =>
    let (reply, s) := s.serve request
    let (replies, s) := serveAll s requests
    (reply :: replies, s)

namespace Request

/-- The scope that a request names. -/
def scope? : Request → Option ScopeId
  | .new => none
  | .child id | .define id _ _ | .get id _ | .assign id _ _ | .size id => some id

/-- How many scopes a request opens. -/
def opens : Request → Nat
  | .new | .child _ => 1
  | _ => 0

/-- Each request names a scope that is there, when there are `n` scopes at first. -/
def AllKnown : Nat → List Request → Prop
  | _, [] => True
  | n, request :: requests =>
    (∀ id ∈ request.scope?, id < n) ∧ AllKnown (n + request.opens) requests

end Request

end Scopes

/-! ### The store as a forest -/

/-- A scope as an environment. -/
def Scope.environment (scope : Scope) : Environment :=
  ⟨scope.parent,
    (scope.bindings.map fun b => (⟨b.1.issue, b.2⟩ : Sigma fun _ : Nat × Nat => Value)).toFinmap⟩

namespace Scope

/-- What is found in a scope is what its environment holds under the key of the name. -/
theorem lookup_environment (scope : Scope) (x : Symbol) :
    scope.environment.values.lookup x.issue = scope.find? x := by
  unfold environment find?
  -- The first binding of a name counts, in the list and in the map made of it.
  rw [Finmap.dlookup_list_toFinmap]
  induction scope.bindings with
  | nil => rfl
  | cons b bindings ih =>
      rw [List.map_cons, List.find?_cons, Symbol.beq_eq_decide_issue]
      by_cases hb : b.1.issue = x.issue
      · rw [decide_eq_true hb, ← hb]
        exact List.dlookup_cons_eq _ _ _
      · have hne : x.issue ≠ (⟨b.1.issue, b.2⟩ : Sigma fun _ : Nat × Nat => Value).1 := Ne.symm hb
        rw [List.dlookup_cons_ne _ _ hne, decide_eq_false hb]
        exact ih

/-- Environments with the same values under the keys of symbols are the same. -/
theorem environment_values_ext {values values' : Finmap fun _ : Nat × Nat => Value}
    (h : ∀ x : Symbol, values.lookup x.issue = values'.lookup x.issue) : values = values' := by
  refine Finmap.ext_lookup fun key => ?_
  obtain ⟨x, rfl⟩ := Symbol.exists_issue key
  exact h x

/-- Inserting a key, as seen by looking up. -/
theorem lookup_insert (values : Finmap fun _ : Nat × Nat => Value) (name x : Symbol) (v : Value) :
    (values.insert name.issue v).lookup x.issue
      = if x.issue = name.issue then some v else values.lookup x.issue := by
  split
  case isTrue h => rw [h, Finmap.lookup_insert]
  case isFalse h => rw [Finmap.lookup_insert_of_ne _ h]

/-- A scope in which one name has a value now, and which is the same otherwise, is an environment
in which the key of the name is set. -/
theorem environment_set {scope scope' : Scope} {name : Symbol} {v : Value}
    (hparent : scope'.parent = scope.parent)
    (hfind : ∀ x, scope'.find? x = if x.issue = name.issue then some v else scope.find? x) :
    scope'.environment = { scope.environment with
      values := scope.environment.values.insert name.issue v } := by
  refine congrArg₂ Environment.mk hparent (environment_values_ext fun x => ?_)
  rw [lookup_insert, lookup_environment]
  exact (lookup_environment scope' x).trans (hfind x)

/-- A scope that binds each name once has as many bindings as its environment has keys. -/
theorem card_environment {scope : Scope} (h : scope.Distinct) :
    scope.environment.values.keys.card = scope.bindings.length := by
  have hkeys : scope.environment.values.keys = (scope.names.map Symbol.issue).toFinset := by
    ext key
    obtain ⟨x, rfl⟩ := Symbol.exists_issue key
    rw [Finmap.mem_keys, ← Finmap.lookup_isSome, lookup_environment, ← binds_eq_isSome, binds_eq]
    simp [Symbol.beq_eq_decide_issue]
  rw [hkeys, List.toFinset_card_of_nodup h]
  simp [names]

end Scope

namespace Scopes

variable {s : Scopes}

/-- The store as a forest. -/
def forest (s : Scopes) : Forest := s.cells.toList.map Scope.environment

/-- The environments of the forest are the scopes of the store, under the same numbers. -/
theorem getElem?_forest (s : Scopes) (i : ScopeId) :
    s.forest[i]? = (s.at? i).map Scope.environment := by
  simp [forest, at?]

/-- There are as many environments as scopes. -/
theorem length_forest (s : Scopes) : s.forest.length = s.count := by
  simp [forest, count]

/-- An environment holds what its scope binds. -/
theorem lookup_forest (s : Scopes) (x : Symbol) (i : ScopeId) :
    s.forest.lookup x.issue i = s.valueAt x i := by
  unfold Forest.lookup valueAt
  rw [getElem?_forest]
  cases s.at? i with
  | none => rfl
  | some scope => exact scope.lookup_environment x

/-- From every scope there is a way outward, also where there are several outermost scopes. -/
theorem Nested.exists_outward (hs : s.Nested) {i : ScopeId} (hi : i < s.count) :
    ∃ path, s.Outward i path := by
  induction i using Nat.strongRecOn with
  | ind i ih =>
      obtain ⟨scope, hscope⟩ := exists_at? hi
      cases hparent : scope.parent with
      | none => exact ⟨[i], .root hscope hparent⟩
      | some p =>
          have hlt : p < i := hs i scope hscope p hparent
          obtain ⟨path, hpath⟩ := ih p hlt (Nat.lt_trans hlt hi)
          exact ⟨i :: path, .inside hscope hparent hpath⟩

/-- The chain in the forest is the way outward. -/
theorem Outward.chain_eq {i : ScopeId} {path : List ScopeId} (h : s.Outward i path)
    (hs : s.Nested) {n : Nat} (hn : i < n) : s.forest.chain n i = path := by
  induction h generalizing n with
  | root hscope hparent =>
      obtain ⟨k, rfl⟩ := Nat.exists_eq_add_one_of_ne_zero (Nat.ne_zero_of_lt hn)
      simp [Forest.chain, getElem?_forest, hscope, Scope.environment, hparent]
  | inside hscope hparent _ ih =>
      obtain ⟨k, rfl⟩ := Nat.exists_eq_add_one_of_ne_zero (Nat.ne_zero_of_lt hn)
      have hlt := hs _ _ hscope _ hparent
      have hchain := ih (Nat.lt_of_lt_of_le hlt (Nat.lt_succ_iff.1 hn))
      simp [Forest.chain, getElem?_forest, hscope, Scope.environment, hparent, hchain]

/-- Looking up a name along the chain gives what the store gives. -/
theorem get?_forest (hs : s.Nested) {i : ScopeId} (hi : i < s.count) (x : Symbol) :
    s.forest.get? i x.issue = s.get? i x := by
  obtain ⟨path, hpath⟩ := hs.exists_outward hi
  have hlookup : s.forest.lookup x.issue = s.valueAt x := funext (s.lookup_forest x)
  rw [Forest.get?, hpath.chain_eq hs (Nat.lt_succ_self i), hlookup, hpath.get?_eq hs]

/-- The nearest environment that holds a key is the scope in which the store finds the name. -/
theorem owner?_forest (hs : s.Nested) {i : ScopeId} (hi : i < s.count) (x : Symbol) :
    s.forest.owner? i x.issue = s.resolve x i := by
  obtain ⟨path, hpath⟩ := hs.exists_outward hi
  have hlookup : s.forest.lookup x.issue = s.valueAt x := funext (s.lookup_forest x)
  rw [Forest.owner?, hpath.chain_eq hs (Nat.lt_succ_self i), hlookup, hpath.resolve_eq hs]

/-- A change to a scope that gives one name a value. -/
structure Gives (s : Scopes) (id : ScopeId) (name : Symbol) (v : Value) (f : Scope → Scope) :
    Prop where
  parent (scope : Scope) : (f scope).parent = scope.parent
  find? {scope : Scope} : s.at? id = some scope → ∀ x,
    (f scope).find? x = if x.issue = name.issue then some v else scope.find? x

/-- A definition is such a change, in any scope. -/
theorem gives_define (s : Scopes) (id : ScopeId) (name : Symbol) (v : Value) :
    s.Gives id name v fun scope => scope.define name v where
  parent scope := scope.parent_define name v
  find? _ := Scope.find?_define _ name v

/-- An assignment is such a change in a scope that binds the name. Elsewhere it would do nothing. -/
theorem gives_assign {id : ScopeId} {name : Symbol} (h : (s.valueAt name id).isSome) (v : Value) :
    s.Gives id name v fun scope => scope.assign name v where
  parent _ := rfl
  find? hscope := Scope.find?_assign (by simpa [valueAt, hscope] using h) v

/-- Such a change sets the key of the name in the forest. -/
theorem Gives.forest {id : ScopeId} {name : Symbol} {v : Value} {f : Scope → Scope}
    (h : s.Gives id name v f) :
    (Scopes.mk (s.cells.modify id f)).forest = s.forest.put id name.issue v := by
  refine List.ext_getElem? fun i => ?_
  rw [getElem?_forest, at?_modify, Forest.put, List.getElem?_modify, getElem?_forest]
  by_cases hi : i = id
  · subst hi
    simp only [if_true]
    cases hscope : s.at? i with
    | none => rfl
    | some scope => simp [Scope.environment_set (h.parent scope) (h.find? hscope)]
  · simp [hi, Ne.symm hi]

/-- Opening a scope adds an environment that holds nothing, with a link to its parent. -/
theorem forest_openScope (s : Scopes) (parent : Option ScopeId) :
    (s.openScope parent).2.forest = s.forest ++ [⟨parent, ∅⟩] := by
  simp [forest, openScope, Scope.environment]

/-! ### Answers -/

/-- The store is in order: parents are older, and each scope binds each name once. -/
structure Tidy (s : Scopes) : Prop where
  nested : s.Nested
  distinct {i : ScopeId} {scope : Scope} : s.at? i = some scope → scope.Distinct

/-- The store without any scopes is in order. -/
theorem tidy_empty : empty.Tidy := ⟨nested_empty, fun hscope => nomatch hscope⟩

/-- Opening a scope inside of one that is there keeps the order: its parent is older, and it binds
no names yet. -/
theorem Tidy.openScope (h : s.Tidy) {parent : Option ScopeId}
    (hparent : ∀ p ∈ parent, p < s.count) : (s.openScope parent).2.Tidy where
  nested := h.nested.openScope hparent
  distinct hscope := by
    rw [at?_openScope] at hscope
    split at hscope
    · cases hscope
      exact List.nodup_nil
    · exact h.distinct hscope

/-- A change to a scope that keeps its parent, and binds each name once again, keeps the order. -/
theorem Tidy.modify (h : s.Tidy) {id : ScopeId} {f : Scope → Scope}
    (hparent : ∀ scope, (f scope).parent = scope.parent)
    (hf : ∀ scope : Scope, scope.Distinct → (f scope).Distinct) :
    (Scopes.mk (s.cells.modify id f)).Tidy where
  nested := h.nested.modify id hparent
  distinct hscope := by
    rw [at?_modify] at hscope
    split at hscope
    · obtain ⟨old, hold, rfl⟩ := Option.map_eq_some_iff.1 hscope
      exact hf old (h.distinct hold)
    · exact h.distinct hscope

/-- A definition keeps the order. -/
theorem Tidy.define (h : s.Tidy) (id : ScopeId) (name : Symbol) (v : Value) :
    (s.define id name v).Tidy :=
  h.modify (fun scope => scope.parent_define name v) fun _ hscope => hscope.define name v

/-- An assignment keeps the order. -/
theorem Tidy.assignAt (h : s.Tidy) (owner : ScopeId) (name : Symbol) (v : Value) :
    (s.assignAt owner name v).Tidy :=
  h.modify (fun _ => rfl) fun _ hscope => hscope.assign name v

/-- The size of a scope is the number of its names. -/
theorem size_eq (s : Scopes) (i : ScopeId) : s.size i = (s.namesAt i).length := by
  have hat : s.cells[i]? = s.at? i := rfl
  rw [size, hat, namesAt]
  cases s.at? i with
  | none => rfl
  | some scope => simp [Scope.names]

/-- In a store in order, the sizes of scopes are those of their environments. -/
theorem size_forest (h : s.Tidy) (id : ScopeId) : s.forest.size id = s.size id := by
  rw [size_eq, Forest.size, getElem?_forest, namesAt]
  cases hscope : s.at? id with
  | none => rfl
  | some scope => simpa [Scope.names] using Scope.card_environment (h.distinct hscope)

/-- The scope that is found holds the name. -/
theorem isSome_valueAt_of_resolve {name : Symbol} {i owner : ScopeId}
    (h : s.resolve name i = some owner) : (s.valueAt name owner).isSome := by
  induction i using Nat.strongRecOn with
  | ind i ih =>
      rw [resolve_eq] at h
      split at h
      case h_1 => cases h
      case h_2 scope hscope =>
        split at h
        case isTrue hbinds =>
          cases h
          rwa [← binds_eq_valueAt hscope]
        case isFalse =>
          -- The search goes on in an older scope, or not at all.
          split at h
          case h_1 => cases h
          case h_2 parent _ =>
            split at h
            case isTrue hlt => exact ih parent hlt h
            case isFalse => cases h

/-- The store answers a request as the forest does, and goes on in the same way. -/
theorem serve_forest (h : s.Tidy) {request : Request}
    (hknown : ∀ id ∈ request.scope?, id < s.count) :
    s.forest.serve request = ((s.serve request).1, (s.serve request).2.forest) := by
  cases request with
  | new | child id =>
      simp only [Forest.serve, serve, forest_openScope, length_forest]
      rfl
  | define id name v => exact congrArg _ (gives_define s id name v).forest.symm
  | get id name => simp only [Forest.serve, serve, get?_forest h.nested (hknown id rfl)]
  | size id => simp only [Forest.serve, serve, size_forest h]
  | assign id name v =>
      simp only [Forest.serve, serve, assign?, owner?_forest h.nested (hknown id rfl)]
      cases howner : s.resolve name.lexeme id with
      | none => rfl
      | some owner =>
          have hfound := isSome_valueAt_of_resolve howner
          exact congrArg _ (gives_assign hfound v).forest.symm

/-- A request leaves the store in order, with as many scopes more as it opens. -/
theorem Tidy.serve (h : s.Tidy) {request : Request}
    (hknown : ∀ id ∈ request.scope?, id < s.count) :
    (s.serve request).2.Tidy ∧ (s.serve request).2.count = s.count + request.opens := by
  cases request with
  | new => exact ⟨h.openScope nofun, count_openScope s none⟩
  | child id => exact ⟨h.openScope hknown, count_openScope s (some id)⟩
  | define id name v => exact ⟨h.define id name v, count_define s id name v⟩
  | get | size => exact ⟨h, rfl⟩
  | assign id name v =>
      simp only [Scopes.serve, assign?]
      cases s.resolve name.lexeme id with
      | none => exact ⟨h, rfl⟩
      | some owner => exact ⟨h.assignAt owner name.lexeme v, count_assignAt s owner name.lexeme v⟩

/-- The same for a row of requests. -/
theorem serveAll_forest {requests : List Request} (h : s.Tidy)
    (hknown : Request.AllKnown s.count requests) :
    (s.serveAll requests).2.Tidy ∧ s.forest.serveAll requests
      = ((s.serveAll requests).1, (s.serveAll requests).2.forest) := by
  induction requests generalizing s with
  | nil => exact ⟨h, rfl⟩
  | cons request requests ih =>
      obtain ⟨hfirst, hrest⟩ := hknown
      obtain ⟨htidy, hcount⟩ := h.serve hfirst
      obtain ⟨hend, hforest⟩ := ih htidy (hcount ▸ hrest)
      refine ⟨hend, ?_⟩
      simp only [Forest.serveAll, serveAll, serve_forest h hfirst, hforest]

/-! ### What the answers say of the store -/

/-- One name of one scope has a value from then on. All other names of all scopes, the scopes
themselves and their parents are as before. -/
structure Sets (s s' : Scopes) (id : ScopeId) (name : Symbol) (v : Value) : Prop where
  count : s'.count = s.count
  parent (i : ScopeId) : s'.parent? i = s.parent? i
  value : s'.valueAt name id = some v
  other {i : ScopeId} {x : Symbol} : ¬ (i = id ∧ (x == name) = true) →
    s'.valueAt x i = s.valueAt x i

/-- What looking up names, assigning to them and binding them comes to. -/
structure ChainLaws (s : Scopes) : Prop where
  /-- The nearest scope that holds a name has a value for it. -/
  held {e owner : ScopeId} {name : Symbol} : s.Nearest name e owner →
    ∃ v, s.valueAt name owner = some v
  /-- This value is what is found. -/
  get_found {e owner : ScopeId} {name : Token} {v : Value} : s.Nearest name.lexeme e owner →
    s.valueAt name.lexeme owner = some v → s.serve (.get e name) = (.value v, s)
  /-- Nothing is found if no scope on the chain holds the name. -/
  get_missing {e : ScopeId} {name : Token} : (∀ owner, ¬ s.Nearest name.lexeme e owner) →
    s.serve (.get e name) = (.error ⟨name, .undefinedVariable name.name⟩, s)
  /-- An assignment gives the name a value in the nearest scope that holds it. -/
  assign_found {e owner : ScopeId} {name : Token} (v : Value) :
    s.Nearest name.lexeme e owner → ∃ s', s.serve (.assign e name v) = (.done, s') ∧
      s.Sets s' owner name.lexeme v ∧ ∀ i, s'.size i = s.size i
  assign_missing {e : ScopeId} {name : Token} (v : Value) :
    (∀ owner, ¬ s.Nearest name.lexeme e owner) →
    s.serve (.assign e name v) = (.error ⟨name, .undefinedVariable name.name⟩, s)
  /-- A name is bound in the scope itself, whether it was bound there or not. -/
  define {e : ScopeId} (name : Symbol) (v : Value) : e < s.count →
    ∃ s', s.serve (.define e name v) = (.done, s') ∧ s.Sets s' e name v ∧
      s'.size e = s.size e + (if (s.valueAt name e).isSome then 0 else 1) ∧
      ∀ i, i ≠ e → s'.size i = s.size i
  /-- After an assignment, the new value is found from exactly those scopes from which the name is
  found in the same scope. For all others nothing is different. -/
  get_assigned {e owner : ScopeId} {name name' : Token} (v : Value) (d : ScopeId) :
    s.Nearest name.lexeme e owner → (name'.lexeme == name.lexeme) = true →
      (s.Nearest name.lexeme d owner →
        ((s.serve (.assign e name v)).2.serve (.get d name')).1 = .value v) ∧
      (¬ s.Nearest name.lexeme d owner →
        ((s.serve (.assign e name v)).2.serve (.get d name')).1 = (s.serve (.get d name')).1)

/-- Such a change gives the name its value in this scope. Other names and other scopes have the
values that they had. -/
theorem Gives.valueAt_eq {id : ScopeId} {name : Symbol} {v : Value} {f : Scope → Scope}
    (h : s.Gives id name v f) (x : Symbol) (i : ScopeId) :
    (Scopes.mk (s.cells.modify id f)).valueAt x i
      = if i = id ∧ x.issue = name.issue then (s.at? i).map fun _ => v else s.valueAt x i := by
  unfold valueAt
  rw [at?_modify]
  by_cases hi : i = id
  · subst hi
    cases hscope : s.at? i with
    | none => simp
    | some scope => simp [h.find? hscope]
  · simp [hi]

/-- Said of the whole store: the name is set, and all else is as before. -/
theorem Gives.sets {id : ScopeId} {name : Symbol} {v : Value} {f : Scope → Scope}
    (h : s.Gives id name v f) (hid : id < s.count) :
    s.Sets ⟨s.cells.modify id f⟩ id name v where
  count := by simp [Scopes.count]
  parent i := by
    simp only [parent?, at?_modify]
    split
    · cases s.at? i with
      | none => rfl
      | some scope => exact h.parent scope
    · rfl
  value := by
    obtain ⟨scope, hscope⟩ := exists_at? hid
    rw [h.valueAt_eq, if_pos ⟨rfl, rfl⟩, hscope]
    rfl
  other {i x} hother := by
    -- Another symbol with the same key would be found as well, so keys are compared here.
    rw [Symbol.beq_eq_decide_issue, decide_eq_true_iff] at hother
    rw [h.valueAt_eq, if_neg hother]

/-- An assignment changes the size of no scope. -/
theorem size_assignAt (s : Scopes) (owner i : ScopeId) (name : Symbol) (v : Value) :
    (s.assignAt owner name v).size i = s.size i := by
  rw [size_eq, size_eq, namesAt_assignAt]

/-- A definition makes a scope larger by one if the name is new there. -/
theorem size_define {id : ScopeId} (hid : id < s.count) (name : Symbol) (v : Value) :
    (s.define id name v).size id = s.size id + (if (s.valueAt name id).isSome then 0 else 1) := by
  obtain ⟨scope, hscope⟩ := exists_at? hid
  have hnew : (s.define id name v).at? id = some (scope.define name v) := by
    simp [define, at?_modify, hscope]
  rw [size_eq, size_eq, namesAt_of_at? hscope, namesAt_of_at? hnew, Scope.names_define,
    ← Scope.binds_eq, binds_eq_valueAt hscope]
  split <;> simp

/-! Names are found by what makes them this symbol. -/

/-- Symbols with the same key have the same value in each scope. -/
theorem valueAt_congr (s : Scopes) {x y : Symbol} (h : x.issue = y.issue) (i : ScopeId) :
    s.valueAt x i = s.valueAt y i := by
  simp only [valueAt, Scope.find?_congr _ h]

/-- The search for either of them ends in the same scope. -/
theorem resolve_congr (s : Scopes) {x y : Symbol} (h : x.issue = y.issue) (i : ScopeId) :
    s.resolve x i = s.resolve y i := by
  induction i using Nat.strongRecOn with
  | ind i ih =>
      rw [resolve_eq, resolve_eq s y]
      cases s.at? i with
      | none => rfl
      | some scope =>
          have hbinds : scope.binds x = scope.binds y := by
            rw [Scope.binds_eq_isSome, Scope.binds_eq_isSome, scope.find?_congr h]
          simp only [hbinds]
          -- The search goes on in an older scope, or not at all.
          split
          · rfl
          · cases scope.parent with
            | none => rfl
            | some parent =>
                simp only
                split
                case isTrue hlt => exact ih parent hlt
                case isFalse => rfl

/-- Assignments leave names where they are found. -/
theorem resolve_assignAt (s : Scopes) (owner : ScopeId) (name : Symbol) (v : Value)
    (x : Symbol) (i : ScopeId) : (s.assignAt owner name v).resolve x i = s.resolve x i := by
  by_cases hi : i < s.count
  · have hnames (j : ScopeId) (_ : j < s.count) := namesAt_assignAt s owner j name v
    exact (grows_assignAt owner name v).resolve hnames x i hi
  · have hout : s.count ≤ i := Nat.le_of_not_lt hi
    rw [resolve_eq, resolve_eq s, at?_eq_none hout, at?_eq_none (count_assignAt s .. ▸ hout)]

/-- What is found is the value in the scope that is found. -/
theorem get?_eq_bind (s : Scopes) (i : ScopeId) (x : Symbol) :
    s.get? i x = (s.resolve x i).bind (s.valueAt x) := rfl

/-- After an assignment, the new value is found where the name is found in the same scope. -/
theorem get?_assignAt {owner : ScopeId} {name x : Symbol} (howner : (s.valueAt name owner).isSome)
    (hsame : x.issue = name.issue) (v : Value) (d : ScopeId) :
    (s.assignAt owner name v).get? d x
      = if s.resolve name d = some owner then some v else s.get? d x := by
  obtain ⟨scope, hscope, -⟩ := Option.bind_eq_some_iff.1 (Option.some_get howner).symm
  have hsets := (gives_assign howner v).sets (lt_count_of_at? hscope)
  rw [get?_eq_bind, get?_eq_bind, resolve_assignAt, s.resolve_congr hsame]
  split
  case isTrue hfound =>
    rw [hfound, Option.bind_some, valueAt_congr _ hsame]
    exact hsets.value
  case isFalse hfound =>
    -- The name is found elsewhere, if at all, and there it is as before.
    refine Option.bind_congr fun found hresolve => hsets.other fun hcase => hfound ?_
    exact hcase.1 ▸ hresolve

/-- A store in order keeps the laws. What the nearest scope is on the way outward, the search of the
store finds. -/
theorem Tidy.chainLaws (h : s.Tidy) : s.ChainLaws where
  held hnearest := by
    obtain ⟨scope, v, hscope, hfind⟩ := hnearest.value
    exact ⟨v, by simp [valueAt, hscope, hfind]⟩
  get_found hnearest hv := by
    simp [Scopes.serve, get?_eq_bind, (resolve_eq_some h.nested).2 hnearest, hv]
  get_missing hnone := by
    simp [Scopes.serve, get?_eq_bind, (resolve_eq_none h.nested).2 hnone, Response.undefined]
  -- The nearest scope is the one in which the store looks for the name, so it is changed there.
  assign_found {e owner name} v hnearest := by
    have hresolve := (resolve_eq_some h.nested).2 hnearest
    have hgives := gives_assign (isSome_valueAt_of_resolve hresolve) v
    obtain ⟨scope, -, hscope, -⟩ := hnearest.value
    refine ⟨s.assignAt owner name.lexeme v, ?_, hgives.sets (lt_count_of_at? hscope),
      fun i => size_assignAt s owner i name.lexeme v⟩
    simp [Scopes.serve, assign?, hresolve]
  assign_missing v hnone := by
    simp [Scopes.serve, assign?, (resolve_eq_none h.nested).2 hnone, Response.undefined]
  define {e} name v he := by
    refine ⟨_, rfl, (gives_define s e name v).sets he, size_define he name v, fun i hi => ?_⟩
    rw [size_eq, size_eq, namesAt_define_of_ne hi]
  get_assigned {e owner name name'} v d hnearest hsame := by
    rw [Symbol.beq_eq_decide_issue, decide_eq_true_iff] at hsame
    have hresolve := (resolve_eq_some h.nested).2 hnearest
    have howner := isSome_valueAt_of_resolve hresolve
    simp only [Scopes.serve, assign?, hresolve, Option.map_some, get?_assignAt howner hsame]
    constructor
    · intro hd
      rw [if_pos ((resolve_eq_some h.nested).2 hd)]
      rfl
    · intro hd
      rw [if_neg (mt (resolve_eq_some h.nested).1 hd)]

end Scopes

/-! ### Programs -/

/-- Programs leave their names to the store: what it answers is what comes of them. -/
structure Machine.Asks (m : Machine) (n : Nat) : Prop where
  get {name : Token} {v : Value} {s : Scopes} :
    m.scopes.serve (.get m.current name) = (.value v, s) →
    eval (n + 1) (.get name) m = .done v { m with scopes := s }
  get_error {name : Token} {e : RuntimeError} {s : Scopes} :
    m.scopes.serve (.get m.current name) = (.error e, s) →
    eval (n + 1) (.get name) m = .failed e { m with scopes := s }
  set {name : Token} {value : Expr} {v : Value} {m₁ : Machine} {s : Scopes} :
    eval n value m = .done v m₁ → m₁.scopes.serve (.assign m₁.current name v) = (.done, s) →
    eval (n + 1) (.set name value) m = .done v { m₁ with scopes := s }
  set_error {name : Token} {value : Expr} {v : Value} {m₁ : Machine} {e : RuntimeError}
    {s : Scopes} : eval n value m = .done v m₁ →
    m₁.scopes.serve (.assign m₁.current name v) = (.error e, s) →
    eval (n + 1) (.set name value) m = .failed e { m₁ with scopes := s }
  declare {name : Token} {init : Option Expr} {v : Value} {m₁ : Machine} {s : Scopes} :
    evalOptional n init m = .done v m₁ →
    m₁.scopes.serve (.define m₁.current name.lexeme v) = (.done, s) →
    exec (n + 1) (.declare name init) m = .done .normal { m₁ with scopes := s }
  block {body : List Stmt} {id : ScopeId} {s : Scopes} :
    m.scopes.serve (.child m.current) = (.opened id, s) →
    exec (n + 1) (.block body) m = execIn n id body { m with scopes := s }

/-- Reading, assigning and declaring a variable, and opening a block, are requests to the store, and
what they come to is its answer. -/
theorem Machine.asks (m : Machine) (n : Nat) : m.Asks n where
  get {name v s} h := by
    simp only [Scopes.serve, Prod.mk.injEq] at h
    obtain ⟨hanswer, rfl⟩ := h
    cases hget : m.scopes.get? m.current name.lexeme with
    -- The answer is an error and not a value, so this is not the case at hand.
    | none => simp [hget, Scopes.Response.undefined] at hanswer
    | some w =>
        simp only [hget, Option.map_some, Option.getD_some, Scopes.Response.value.injEq] at hanswer
        simp [eval, Machine.get?, hget, hanswer]
  get_error {name e s} h := by
    simp only [Scopes.serve, Prod.mk.injEq] at h
    obtain ⟨hanswer, rfl⟩ := h
    cases hget : m.scopes.get? m.current name.lexeme with
    | none =>
        simp only [hget, Option.map_none, Option.getD_none, Scopes.Response.undefined,
          Scopes.Response.error.injEq] at hanswer
        simp [eval, Machine.get?, hget, hanswer]
    | some w => simp [hget] at hanswer
  set {name value v m₁ s} hvalue h := by
    simp only [Scopes.serve, Scopes.assign?] at h
    cases howner : m₁.scopes.resolve name.lexeme m₁.current with
    | none => simp [howner, Scopes.Response.undefined] at h
    | some owner =>
        simp only [howner, Option.map_some, Prod.mk.injEq, true_and] at h
        simp [eval, hvalue, Outcome.andThen, Machine.owner?, howner, Machine.assignAt, h]
  set_error {name value v m₁ e s} hvalue h := by
    simp only [Scopes.serve, Scopes.assign?] at h
    cases howner : m₁.scopes.resolve name.lexeme m₁.current with
    | none =>
        simp only [howner, Option.map_none, Scopes.Response.undefined, Prod.mk.injEq,
          Scopes.Response.error.injEq] at h
        obtain ⟨rfl, rfl⟩ := h
        simp [eval, hvalue, Outcome.andThen, Machine.owner?, howner]
    | some owner => simp [howner] at h
  declare hinit h := by
    simp only [Scopes.serve, Prod.mk.injEq, true_and] at h
    simp [exec, hinit, Outcome.andThen, Machine.define, h]
  block h := by
    simp only [Scopes.serve, Prod.mk.injEq, Scopes.Response.opened.injEq] at h
    obtain ⟨rfl, rfl⟩ := h
    rfl

/-- Environments are chains of finite maps with shared tails: whatever the store is asked, it
answers as the forest does and stays the same forest. Programs leave their names to it. -/
theorem environments_are_chains_of_maps (requests : List Scopes.Request)
    (hknown : Scopes.Request.AllKnown 0 requests) :
    Forest.serveAll [] requests
        = ((Scopes.empty.serveAll requests).1, (Scopes.empty.serveAll requests).2.forest) ∧
      (Scopes.empty.serveAll requests).2.ChainLaws ∧
      ∀ (m : Machine) (n : Nat), m.Asks n := by
  obtain ⟨htidy, hserve⟩ := Scopes.serveAll_forest Scopes.tidy_empty hknown
  exact ⟨hserve, htidy.chainLaws, Machine.asks⟩

/-- Two scopes in a third one, which binds a name. One of the two binds it, too. An assignment
through the other is seen in the outer scope, and not in the one that binds the name itself. -/
theorem environments_are_chains_of_maps_siblings :
    let a : Symbol := ⟨0, 7, "a"⟩
    let token (s : Symbol) : Token := ⟨.identifier, s, none, 1⟩
    let requests : List Scopes.Request := [.new, .define 0 a .nil, .child 0, .child 0,
      .define 1 a (.bool false), .assign 2 (token a) (.bool true), .get 0 (token a),
      .get 1 (token a), .get 2 (token ⟨1, 7, "a"⟩), .size 0, .size 2]
    (Scopes.empty.serveAll requests).1 = [.opened 0, .done, .opened 1, .opened 2, .done, .done,
      .value (.bool true), .value (.bool false), .undefined (token ⟨1, 7, "a"⟩), .size 1,
      .size 0] := by
  intro a token requests
  have hknown : Scopes.Request.AllKnown 0 requests := by
    simp [requests, Scopes.Request.AllKnown, Scopes.Request.scope?, Scopes.Request.opens]
  have hserve := (environments_are_chains_of_maps requests hknown).1
  exact (congrArg Prod.fst hserve).symm

end Scriptlet
