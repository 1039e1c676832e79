import Mathlib.Data.List.Perm.Subperm
import Scriptlet.Proofs.Parser.Recast

/-!
# `Scriptlet.Proofs.Parser.Proper`: well-formed trees and their tokens

What is asked of a tree that a parser keeps, and how such trees are put together.

* `Expr.Proper` and `Stmt.Proper`: every token of a tree is of the kind that its place asks for,
  at any depth, and branches and bodies of loops are no declarations. The machine relies on this:
  it knows no other operators.
* `Held`: some tokens are among others, as often as they occur.
* `Expr.Kept` and `Stmt.Kept`: the tree is well-formed, and its tokens are among those that were
  read for it. There is one lemma for each way in which a parser builds a tree.

A list that is too long is an error, but not one of shape: nothing is said here about lengths.
-/

set_option autoImplicit false

namespace Scriptlet

/-! ### Well-formed trees -/

/-- The operators of a node with two operands that are both evaluated. -/
def binaryOperators : List Kind :=
  [.mark .equalEqual, .mark .bangEqual, .mark .greater, .mark .greaterEqual, .mark .less,
    .mark .lessEqual, .mark .plus, .mark .minus, .mark .star, .mark .slash]

/-- Each token of the expression is of a kind that fits its place. -/
inductive Expr.Proper : Expr → Prop where
  | literal {value : Literal} : Proper (.literal value)
  | group {e : Expr} : e.Proper → Proper (.group e)
  | unary {op : Token} {e : Expr} : op.kind ∈ [.mark .bang, .mark .minus] → e.Proper →
      Proper (.unary op e)
  | binary {a b : Expr} {op : Token} : a.Proper → op.kind ∈ binaryOperators → b.Proper →
      Proper (.binary a op b)
  | logical {a b : Expr} {op : Token} : a.Proper →
      op.kind ∈ [.keyword .andWord, .keyword .orWord] → b.Proper → Proper (.logical a op b)
  | get {name : Token} : name.kind = .identifier → Proper (.get name)
  | set {name : Token} {e : Expr} : name.kind = .identifier → e.Proper → Proper (.set name e)
  | call {f : Expr} {paren : Token} {args : List Expr} : f.Proper →
      paren.kind = .mark .rightParen → (∀ arg ∈ args, arg.Proper) → Proper (.call f paren args)

/-- Whether the statement binds a name. -/
def Stmt.declares : Stmt → Bool
  | .declare _ _ | .function _ _ _ => true
  | _ => false

/-- Each token of the statement is of a kind that fits its place, and nothing is declared where
only a statement may stand. -/
inductive Stmt.Proper : Stmt → Prop where
  | expression {e : Expr} : e.Proper → Proper (.expression e)
  | declare {name : Token} {init : Option Expr} : name.kind = .identifier →
      (∀ e ∈ init, e.Proper) → Proper (.declare name init)
  | block {body : List Stmt} : (∀ s ∈ body, s.Proper) → Proper (.block body)
  | branch {c : Expr} {yes : Stmt} {no : Option Stmt} : c.Proper → yes.Proper →
      yes.declares = false → (∀ s ∈ no, s.Proper) → (∀ s ∈ no, s.declares = false) →
      Proper (.branch c yes no)
  | loop {c : Expr} {body : Stmt} : c.Proper → body.Proper → body.declares = false →
      Proper (.loop c body)
  | function {name : Token} {params : List Token} {body : List Stmt} :
      name.kind = .identifier → (∀ p ∈ params, p.kind = .identifier) →
      (∀ s ∈ body, s.Proper) → Proper (.function name params body)
  | giveBack {word : Token} {result : Option Expr} : word.kind = .keyword .returnWord →
      (∀ e ∈ result, e.Proper) → Proper (.giveBack word result)

/-! ### Tokens among others -/

/-- The tokens `ts` are among the tokens `us`, each at least as often. Counting makes this a matter
of arithmetic when lists are put together. -/
def Held (us ts : List Token) : Prop :=
  ∀ p : Token → Bool, ts.countP p ≤ us.countP p

/-- No token at all is among any tokens. -/
theorem held_nil (us : List Token) : Held us [] := fun _ => Nat.zero_le _

/-- Counting every property of tokens is enough to tell that one list is part of the other, up to
the order. -/
theorem Held.subperm {us ts : List Token} (h : Held us ts) : ts.Subperm us := by
  classical
  let _ : BEq Token := instBEqOfDecidableEq
  refine List.subperm_ext_iff.2 fun t _ => ?_
  exact h (· == t)

/-- The tokens of two rows of statements are those of the one and then those of the other. -/
theorem Stmt.tokensAll_append (ss rest : List Stmt) :
    Stmt.tokensAll (ss ++ rest) = Stmt.tokensAll ss ++ Stmt.tokensAll rest := by
  induction ss with
  | nil => rfl
  | cons s ss ih => simp only [List.cons_append, Stmt.tokensAll, ih, List.append_assoc]

/-- A statement that may be missing has as many tokens as the row that holds it alone. -/
theorem Stmt.tokensAll_toList (s : Option Stmt) :
    Stmt.tokensAll s.toList = Stmt.tokensOption s := by
  cases s with
  | none => rfl
  | some s => simp [Stmt.tokensAll, Stmt.tokensOption]

/-! ### Trees that were read from tokens -/

/-- The expression is well-formed, and its tokens are among `us`. -/
def Expr.Kept (us : List Token) (e : Expr) : Prop := e.Proper ∧ Held us e.tokens

/-- The same of an expression that may be left out. -/
def Expr.KeptOption (us : List Token) (e : Option Expr) : Prop :=
  (∀ x ∈ e, x.Proper) ∧ Held us (e.toList.flatMap Expr.tokens)

/-- The same of a row of expressions. -/
def Expr.KeptAll (us : List Token) (es : List Expr) : Prop :=
  (∀ e ∈ es, e.Proper) ∧ Held us (Expr.tokensAll es)

/-- The statement is well-formed, and its tokens are among `us`. -/
def Stmt.Kept (us : List Token) (s : Stmt) : Prop := s.Proper ∧ Held us s.tokens

/-- The same of a statement that is no declaration. -/
def Stmt.KeptPlain (us : List Token) (s : Stmt) : Prop := s.Kept us ∧ s.declares = false

/-- The same of a statement that may be left out. -/
def Stmt.KeptOption (us : List Token) (s : Option Stmt) : Prop :=
  (∀ x ∈ s, x.Proper) ∧ Held us (Stmt.tokensOption s)

/-- The same of a row of statements. -/
def Stmt.KeptAll (us : List Token) (ss : List Stmt) : Prop :=
  (∀ s ∈ ss, s.Proper) ∧ Held us (Stmt.tokensAll ss)

/-- The parameters are names, and among `us`. -/
def KeptNames (us params : List Token) : Prop :=
  (∀ p ∈ params, p.kind = .identifier) ∧ Held us params

namespace Expr

variable {us vs : List Token}

/-- More tokens may have been read than the tree keeps. -/
theorem Kept.append {e : Expr} (h : e.Kept us) (vs : List Token) : e.Kept (us ++ vs) := by
  refine ⟨h.1, fun p => ?_⟩
  have hus := h.2 p
  rw [List.countP_append]
  omega

/-- An assignment is read as a variable, an equality sign, and a value. The tree of the variable
holds the name and nothing else. -/
theorem Kept.set {name equals : Token} {value : Expr} (hname : (Expr.get name).Kept us)
    (hvalue : value.Kept vs) : (Expr.set name value).Kept (us ++ equals :: vs) := by
  have hkind : name.kind = .identifier := by
    -- Only a name stands where a variable is read, so the target of the tree is a name too.
    cases hname.1
    assumption
  refine ⟨.set hkind hvalue.1, fun p => ?_⟩
  have hus := hname.2 p
  have hvs := hvalue.2 p
  simp only [tokens, List.countP_append, List.countP_cons, List.countP_nil] at hus hvs ⊢
  omega

/-- The operators of each level fit the node that the level joins two operands with. -/
theorem operators_fit : ∀ level ∈ binaryLevels, level.operators ⊆
    if level.logical then [.keyword .andWord, .keyword .orWord] else binaryOperators := by
  decide

/-- An operator of a level between two operands, whatever the level. -/
theorem Kept.join {level : Level} {op : Token} {a b : Expr} (ha : a.Kept us)
    (hlevel : level ∈ binaryLevels) (hop : op.kind ∈ level.operators) (hb : b.Kept vs) :
    (level.join a op b).Kept (us ++ op :: vs) := by
  -- The operator fits its level, whether the level is logical or not.
  have hfits := operators_fit level hlevel hop
  have hheld : Held (us ++ op :: vs) (op :: (a.tokens ++ b.tokens)) := by
    intro p
    have hus := ha.2 p
    have hvs := hb.2 p
    simp only [List.countP_append, List.countP_cons]
    omega
  unfold Level.join
  cases hlogical : level.logical with
  | true =>
      simp only [hlogical, if_true] at hfits ⊢
      exact ⟨.logical ha.1 hfits hb.1, hheld⟩
  | false =>
      simp only [hlogical, Bool.false_eq_true, if_false] at hfits ⊢
      exact ⟨.binary ha.1 hfits hb.1, hheld⟩

/-- An operator in front of an operand is kept as it was read. -/
theorem Kept.unary {op : Token} {e : Expr} (hop : op.kind ∈ [.mark .bang, .mark .minus])
    (he : e.Kept us) : (Expr.unary op e).Kept (op :: us) := by
  refine ⟨.unary hop he.1, fun p => ?_⟩
  have hus := he.2 p
  simp only [tokens, List.countP_cons]
  omega

/-- A call is read as a callee, and arguments in parentheses. Of the parentheses, the tree keeps the
closing one. -/
theorem Kept.call {paren : Token} {f : Expr} {args : List Expr} (opening : Token)
    (hf : f.Kept us) (hargs : KeptAll vs args) (hparen : paren.kind = .mark .rightParen) :
    (Expr.call f paren args).Kept (us ++ opening :: (vs ++ [paren])) := by
  refine ⟨.call hf.1 hparen hargs.1, fun p => ?_⟩
  have hus := hf.2 p
  have hvs := hargs.2 p
  simp only [tokens, List.countP_append, List.countP_cons, List.countP_nil]
  omega

/-- Parentheses around an expression leave a trace in the tree, but their tokens are not kept. -/
theorem Kept.group {opening closing : Token} {e : Expr} (he : e.Kept us) :
    (Expr.group e).Kept (opening :: (us ++ [closing])) := by
  refine ⟨.group he.1, fun p => ?_⟩
  have hus := he.2 p
  simp only [tokens, List.countP_append, List.countP_cons]
  omega

/-- One argument is a list of arguments. -/
theorem Kept.single {e : Expr} (he : e.Kept us) : KeptAll us [e] := by
  refine ⟨List.forall_mem_singleton.2 he.1, ?_⟩
  simpa [tokensAll] using he.2

/-- An argument in front of others, and a comma between them. -/
theorem KeptAll.cons {comma : Token} {e : Expr} {es : List Expr} (he : e.Kept us)
    (hes : KeptAll vs es) : KeptAll (us ++ comma :: vs) (e :: es) := by
  refine ⟨List.forall_mem_cons.2 ⟨he.1, hes.1⟩, fun p => ?_⟩
  have hus := he.2 p
  have hvs := hes.2 p
  simp only [tokensAll, List.countP_append, List.countP_cons]
  omega

/-- An expression that is there, where one may be missing. -/
theorem Kept.some {e : Expr} (he : e.Kept us) : KeptOption us (some e) := by
  constructor
  · rintro _ ⟨⟩
    exact he.1
  · simpa using he.2

/-- An expression that is missing keeps no token. -/
theorem keptOption_none (us : List Token) : KeptOption us none :=
  ⟨nofun, held_nil us⟩

/-- A token in front, such as an equality sign, may have been read and not kept. -/
theorem KeptOption.cons {e : Option Expr} (h : KeptOption us e) (t : Token) :
    KeptOption (t :: us) e := by
  refine ⟨h.1, fun p => ?_⟩
  have hus := h.2 p
  rw [List.countP_cons]
  omega

end Expr

/-- A parameter in front of others, and a comma between them. -/
theorem keptNames_cons {us params : List Token} {param comma : Token}
    (hparam : param.kind = .identifier) (hparams : KeptNames us params) :
    KeptNames (param :: comma :: us) (param :: params) := by
  refine ⟨List.forall_mem_cons.2 ⟨hparam, hparams.1⟩, fun p => ?_⟩
  have hus := hparams.2 p
  simp only [List.countP_cons]
  omega

namespace Stmt

variable {us vs ws : List Token}

/-- A word in front of a statement may have been read and not kept. -/
theorem Kept.cons {s : Stmt} (h : s.Kept us) (t : Token) : s.Kept (t :: us) := by
  refine ⟨h.1, fun p => ?_⟩
  have hus := h.2 p
  rw [List.countP_cons]
  omega

/-- A statement that is there, where one may be missing. -/
theorem Kept.some {s : Stmt} (h : s.Kept us) : KeptOption us (some s) := by
  refine ⟨?_, h.2⟩
  rintro _ ⟨⟩
  exact h.1

/-- A closing brace may have been read and not kept. -/
theorem KeptAll.append {body : List Stmt} (h : KeptAll us body) (vs : List Token) :
    KeptAll (us ++ vs) body := by
  refine ⟨h.1, fun p => ?_⟩
  have hus := h.2 p
  rw [List.countP_append]
  omega

/-- A block is no declaration, whatever stands in it. -/
theorem KeptAll.block {body : List Stmt} (h : KeptAll us body) : KeptPlain us (.block body) :=
  ⟨⟨.block h.1, h.2⟩, rfl⟩

/-- The same for a statement that is no declaration. -/
theorem KeptPlain.cons {s : Stmt} (h : s.KeptPlain us) (t : Token) : s.KeptPlain (t :: us) :=
  ⟨h.1.cons t, h.2⟩

/-- An expression with its semicolon. -/
theorem kept_expression {e : Expr} (h : e.Kept us) (semicolon : Token) :
    KeptPlain (us ++ [semicolon]) (.expression e) :=
  ⟨⟨.expression h.1, (h.append [semicolon]).2⟩, rfl⟩

/-- A variable declaration behind its word: a name, an initial value that may be missing, and a
semicolon. -/
theorem kept_declare {name : Token} {init : Option Expr} (hname : name.kind = .identifier)
    (hinit : Expr.KeptOption us init) (semicolon : Token) :
    Kept (name :: (us ++ [semicolon])) (.declare name init) := by
  refine ⟨.declare hname hinit.1, fun p => ?_⟩
  have hus := hinit.2 p
  simp only [tokens, List.countP_append, List.countP_cons]
  omega

/-- A `return`, whose word is kept. -/
theorem kept_giveBack {word : Token} {result : Option Expr}
    (hword : word.kind = .keyword .returnWord) (hresult : Expr.KeptOption us result)
    (semicolon : Token) : KeptPlain (word :: (us ++ [semicolon])) (.giveBack word result) := by
  refine ⟨⟨.giveBack hword hresult.1, fun p => ?_⟩, rfl⟩
  have hus := hresult.2 p
  simp only [tokens, List.countP_append, List.countP_cons]
  omega

/-- An `if` without an `else`, behind its word. -/
theorem kept_branch {opening closing : Token} {c : Expr} {yes : Stmt} (hc : c.Kept us)
    (hyes : yes.KeptPlain vs) :
    KeptPlain (opening :: (us ++ closing :: vs)) (.branch c yes none) := by
  refine ⟨⟨.branch hc.1 hyes.1.1 hyes.2 nofun nofun, fun p => ?_⟩, rfl⟩
  have hus := hc.2 p
  have hvs := hyes.1.2 p
  simp only [tokens, tokensOption, List.countP_append, List.countP_cons, List.countP_nil]
  omega

/-- An `if` with an `else`. Neither branch is a declaration. -/
theorem kept_branch_else {opening closing word : Token} {c : Expr} {yes no : Stmt}
    (hc : c.Kept us) (hyes : yes.KeptPlain vs) (hno : no.KeptPlain ws) :
    KeptPlain (opening :: (us ++ closing :: (vs ++ word :: ws)))
      (.branch c yes (some no)) := by
  have hproper : ∀ s ∈ some no, s.Proper := by
    rintro _ ⟨⟩
    exact hno.1.1
  have hplain : ∀ s ∈ some no, s.declares = false := by
    rintro _ ⟨⟩
    exact hno.2
  refine ⟨⟨.branch hc.1 hyes.1.1 hyes.2 hproper hplain, fun p => ?_⟩, rfl⟩
  have hus := hc.2 p
  have hvs := hyes.1.2 p
  have hws := hno.1.2 p
  simp only [tokens, tokensOption, List.countP_append, List.countP_cons]
  omega

/-- A `while` loop behind its word. -/
theorem kept_loop {opening closing : Token} {c : Expr} {body : Stmt} (hc : c.Kept us)
    (hbody : body.KeptPlain vs) :
    KeptPlain (opening :: (us ++ closing :: vs)) (.loop c body) := by
  refine ⟨⟨.loop hc.1 hbody.1.1 hbody.2, fun p => ?_⟩, rfl⟩
  have hus := hc.2 p
  have hvs := hbody.1.2 p
  simp only [tokens, List.countP_append, List.countP_cons]
  omega

/-- A function behind its word: a name, parameters in parentheses, and a body in braces. -/
theorem kept_function {name opening closing : Token} {params : List Token} {body : List Stmt}
    (hname : name.kind = .identifier) (hparams : KeptNames us params) (left : Token)
    (hbody : KeptAll vs body) :
    Kept (name :: opening :: (us ++ closing :: left :: vs)) (.function name params body) := by
  refine ⟨.function hname hparams.1 hbody.1, fun p => ?_⟩
  have hus := hparams.2 p
  have hvs := hbody.2 p
  simp only [tokens, List.countP_append, List.countP_cons]
  omega

/-- A declaration that may be dropped, in front of others. If it is dropped, its tokens were read
for nothing. -/
theorem KeptAll.toList_append {first : Option Stmt} {more : List Stmt}
    (hfirst : ∀ s ∈ first, s.Kept us) (hmore : KeptAll vs more) :
    KeptAll (us ++ vs) (first.toList ++ more) := by
  refine ⟨List.forall_mem_append.2 ⟨?_, hmore.1⟩, fun p => ?_⟩
  · exact fun s hs => (hfirst s (Option.mem_toList.1 hs)).1
  · have hvs := hmore.2 p
    rw [tokensAll_append, tokensAll_toList, List.countP_append, List.countP_append]
    cases first with
    | none =>
        simp only [tokensOption, List.countP_nil]
        omega
    | some s =>
        have hus := (hfirst s rfl).2 p
        simp only [tokensOption]
        omega

/-- A `for` loop is lowered to a tree in which its parts occur once. -/
theorem tokens_ofFor (init : Option Stmt) (condition increment : Option Expr) (body : Stmt) :
    (Stmt.ofFor init condition increment body).tokens = tokensOption init ++
      (condition.toList.flatMap Expr.tokens ++
        (body.tokens ++ increment.toList.flatMap Expr.tokens)) := by
  cases init <;> cases condition <;> cases increment <;>
    simp [ofFor, tokens, tokensAll, tokensOption, Expr.tokens]

/-- Two statements make a well-formed block. -/
theorem proper_pair {s s' : Stmt} (h : s.Proper) (h' : s'.Proper) : Proper (.block [s, s']) :=
  .block (List.forall_mem_cons.2 ⟨h, List.forall_mem_singleton.2 h'⟩)

/-- A `for` loop is well-formed if its parts are. Where no condition stands, the loop tests a
constant. -/
theorem proper_ofFor {init : Option Stmt} {condition increment : Option Expr} {body : Stmt}
    (hinit : ∀ s ∈ init, s.Proper) (hcondition : ∀ e ∈ condition, e.Proper)
    (hincrement : ∀ e ∈ increment, e.Proper) (hbody : body.Proper)
    (hplain : body.declares = false) :
    (Stmt.ofFor init condition increment body).Proper := by
  -- A missing condition is a constant, and needs no token.
  have htest : (condition.getD (.literal (.bool true))).Proper := by
    cases condition with
    | none => exact .literal
    | some c => exact hcondition c rfl
  cases increment with
  | none =>
      have hloop := Proper.loop htest hbody hplain
      cases init with
      | none => exact hloop
      | some first => exact proper_pair (hinit first rfl) hloop
  | some e =>
      have hround := proper_pair hbody (.expression (hincrement e rfl))
      have hloop := Proper.loop htest hround rfl
      cases init with
      | none => exact hloop
      | some first => exact proper_pair (hinit first rfl) hloop

/-- A `for` loop behind its word, with the tokens of its clauses and of its body in their order. -/
theorem kept_ofFor {opening semicolon closing : Token} {init : Option Stmt}
    {condition increment : Option Expr} {body : Stmt} {xs : List Token}
    (hinit : KeptOption us init) (hcondition : Expr.KeptOption vs condition)
    (hincrement : Expr.KeptOption ws increment) (hbody : body.KeptPlain xs) :
    KeptPlain (opening :: (us ++ (vs ++ semicolon :: (ws ++ closing :: xs))))
      (.ofFor init condition increment body) := by
  refine ⟨⟨proper_ofFor hinit.1 hcondition.1 hincrement.1 hbody.1.1 hbody.2, fun p => ?_⟩, ?_⟩
  · have hus := hinit.2 p
    have hvs := hcondition.2 p
    have hws := hincrement.2 p
    have hxs := hbody.1.2 p
    rw [tokens_ofFor]
    simp only [List.countP_append, List.countP_cons]
    omega
  · cases init <;> rfl

end Stmt

end Scriptlet
