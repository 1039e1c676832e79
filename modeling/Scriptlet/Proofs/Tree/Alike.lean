import Mathlib.Data.List.Forall2
import Scriptlet.Lexical.StaticError
import Scriptlet.Tree.Basic

/-!
# `Scriptlet.Proofs.Tree.Alike`: trees that differ in symbols and lines

Two sources that say the same thing can still lead to different trees: the symbols of their
names were issued under different numbers, or their tokens stand on different lines. A
`Likeness` says which lines and which symbols correspond to each other. Tokens are alike if
they differ in nothing else, and trees are alike if they are built in the same way of alike
tokens.

Only the symbols of names have to correspond, since no others are ever compared. A likeness
carries what makes it useful: symbols are equal on one side when they are equal on the other.
-/

set_option autoImplicit false

namespace Scriptlet

/-- Which lines and which symbols correspond to each other. -/
structure Likeness where
  Line : Nat → Nat → Prop
  Name : Symbol → Symbol → Prop
  /-- Symbols that correspond are equal on both sides, or on none. -/
  beq_eq : ∀ {a a' b b' : Symbol}, Name a a' → Name b b' → (a == b) = (a' == b')

/-- All that corresponds for `ρ` corresponds for `ρ'`. -/
structure Likeness.Le (ρ ρ' : Likeness) : Prop where
  line : ∀ {a a' : Nat}, ρ.Line a a' → ρ'.Line a a'
  name : ∀ {a a' : Symbol}, ρ.Name a a' → ρ'.Name a a'

/-- Tokens that differ in their line and in the number of their symbol at most. -/
structure Token.Alike (ρ : Likeness) (t t' : Token) : Prop where
  kind : t.kind = t'.kind
  name : t.name = t'.name
  literal : t.literal = t'.literal
  line : ρ.Line t.line t'.line
  symbol : t.kind = .identifier → ρ.Name t.lexeme t'.lexeme

/-- Alike tokens that are names. -/
structure Token.NameAlike (ρ : Likeness) (t t' : Token) : Prop extends t.Alike ρ t' where
  identifier : t.kind = .identifier

/-- The names of tokens that are alike correspond. -/
theorem Token.NameAlike.lexeme {ρ : Likeness} {t t' : Token} (h : t.NameAlike ρ t') :
    ρ.Name t.lexeme t'.lexeme :=
  h.symbol h.identifier

/-- Errors that differ in their line at most. -/
structure StaticError.Alike (ρ : Likeness) (e e' : StaticError) : Prop where
  line : ρ.Line e.line e'.line
  location : e.location = e'.location
  defect : e.defect = e'.defect

/-- An error at a token shows its line, and whether it is the end or else its spelling. -/
theorem StaticError.alike_ofToken {ρ : Likeness} {t t' : Token} (h : t.Alike ρ t')
    (defect : Defect) :
    (StaticError.ofToken t defect).Alike ρ (StaticError.ofToken t' defect) where
  line := h.line
  location := by
    unfold ofToken Token.is
    rw [h.kind, h.name]
  defect := rfl

mutual

/-- Expressions that are built in the same way of alike tokens. -/
inductive Expr.Alike (ρ : Likeness) : Expr → Expr → Prop where
  | literal {value : Literal} : Expr.Alike ρ (.literal value) (.literal value)
  | group {e e' : Expr} : e.Alike ρ e' → Expr.Alike ρ (.group e) (.group e')
  | unary {op op' : Token} {e e' : Expr} : op.Alike ρ op' → e.Alike ρ e' →
      Expr.Alike ρ (.unary op e) (.unary op' e')
  | binary {op op' : Token} {a a' b b' : Expr} : a.Alike ρ a' → op.Alike ρ op' →
      b.Alike ρ b' → Expr.Alike ρ (.binary a op b) (.binary a' op' b')
  | logical {op op' : Token} {a a' b b' : Expr} : a.Alike ρ a' → op.Alike ρ op' →
      b.Alike ρ b' → Expr.Alike ρ (.logical a op b) (.logical a' op' b')
  | get {name name' : Token} : name.NameAlike ρ name' →
      Expr.Alike ρ (.get name) (.get name')
  | set {name name' : Token} {e e' : Expr} : name.NameAlike ρ name' → e.Alike ρ e' →
      Expr.Alike ρ (.set name e) (.set name' e')
  | call {f f' : Expr} {paren paren' : Token} {args args' : List Expr} : f.Alike ρ f' →
      paren.Alike ρ paren' → Expr.AllAlike ρ args args' →
      Expr.Alike ρ (.call f paren args) (.call f' paren' args')

/-- Rows of alike expressions. -/
inductive Expr.AllAlike (ρ : Likeness) : List Expr → List Expr → Prop where
  | nil : Expr.AllAlike ρ [] []
  | cons {e e' : Expr} {es es' : List Expr} : e.Alike ρ e' → Expr.AllAlike ρ es es' →
      Expr.AllAlike ρ (e :: es) (e' :: es')

end

mutual

/-- Statements that are built in the same way of alike tokens. -/
inductive Stmt.Alike (ρ : Likeness) : Stmt → Stmt → Prop where
  | expression {e e' : Expr} : e.Alike ρ e' → Stmt.Alike ρ (.expression e) (.expression e')
  | declare {name name' : Token} {init init' : Option Expr} : name.NameAlike ρ name' →
      init.Rel (Expr.Alike ρ) init' → Stmt.Alike ρ (.declare name init) (.declare name' init')
  | block {body body' : List Stmt} : Stmt.AllAlike ρ body body' →
      Stmt.Alike ρ (.block body) (.block body')
  | branch {c c' : Expr} {yes yes' no no' : Stmt} : c.Alike ρ c' → yes.Alike ρ yes' →
      no.Alike ρ no' → Stmt.Alike ρ (.branch c yes (some no)) (.branch c' yes' (some no'))
  | branchOnly {c c' : Expr} {yes yes' : Stmt} : c.Alike ρ c' → yes.Alike ρ yes' →
      Stmt.Alike ρ (.branch c yes none) (.branch c' yes' none)
  | loop {c c' : Expr} {body body' : Stmt} : c.Alike ρ c' → body.Alike ρ body' →
      Stmt.Alike ρ (.loop c body) (.loop c' body')
  | function {name name' : Token} {params params' : List Token} {body body' : List Stmt} :
      name.NameAlike ρ name' → List.Forall₂ (Token.NameAlike ρ) params params' →
      Stmt.AllAlike ρ body body' →
      Stmt.Alike ρ (.function name params body) (.function name' params' body')
  | giveBack {word word' : Token} {result result' : Option Expr} : word.Alike ρ word' →
      result.Rel (Expr.Alike ρ) result' →
      Stmt.Alike ρ (.giveBack word result) (.giveBack word' result')

/-- Rows of alike statements. -/
inductive Stmt.AllAlike (ρ : Likeness) : List Stmt → List Stmt → Prop where
  | nil : Stmt.AllAlike ρ [] []
  | cons {s s' : Stmt} {ss ss' : List Stmt} : s.Alike ρ s' → Stmt.AllAlike ρ ss ss' →
      Stmt.AllAlike ρ (s :: ss) (s' :: ss')

end

/-- Rows of alike statements are of one length. -/
theorem Stmt.AllAlike.length_eq {ρ : Likeness} {ss ss' : List Stmt}
    (h : Stmt.AllAlike ρ ss ss') : ss.length = ss'.length := by
  match h with
  | .nil => rfl
  | .cons _ hss => exact congrArg Nat.succ hss.length_eq

/-! ### More that corresponds

Once more lines and more symbols correspond, everything that was alike still is. -/

section Mono

variable {ρ ρ' : Likeness}

/-- Tokens stay alike when more lines and symbols correspond. -/
theorem Token.Alike.mono (hle : ρ.Le ρ') {t t' : Token} (h : t.Alike ρ t') : t.Alike ρ' t' :=
  { h with
    line := hle.line h.line
    symbol := fun hkind => hle.name (h.symbol hkind) }

/-- So do names. -/
theorem Token.NameAlike.mono (hle : ρ.Le ρ') {t t' : Token} (h : t.NameAlike ρ t') :
    t.NameAlike ρ' t' :=
  ⟨h.toAlike.mono hle, h.identifier⟩

mutual

/-- So do expressions, part by part. -/
theorem Expr.Alike.mono (hle : ρ.Le ρ') {e e' : Expr} : e.Alike ρ e' → e.Alike ρ' e'
  | .literal => .literal
  | .group he => .group (he.mono hle)
  | .unary hop he => .unary (hop.mono hle) (he.mono hle)
  | .binary ha hop hb => .binary (ha.mono hle) (hop.mono hle) (hb.mono hle)
  | .logical ha hop hb => .logical (ha.mono hle) (hop.mono hle) (hb.mono hle)
  | .get hname => .get (hname.mono hle)
  | .set hname he => .set (hname.mono hle) (he.mono hle)
  | .call hf hparen hargs => .call (hf.mono hle) (hparen.mono hle) (hargs.mono hle)

/-- So do expressions in a row. -/
theorem Expr.AllAlike.mono (hle : ρ.Le ρ') {es es' : List Expr} :
    Expr.AllAlike ρ es es' → Expr.AllAlike ρ' es es'
  | .nil => .nil
  | .cons he hes => .cons (he.mono hle) (hes.mono hle)

end

/-- So does an expression that may be missing. -/
theorem Expr.option_mono (hle : ρ.Le ρ') {e e' : Option Expr} :
    e.Rel (Expr.Alike ρ) e' → e.Rel (Expr.Alike ρ') e'
  | .none => .none
  | .some he => .some (he.mono hle)

mutual

/-- So do statements. -/
theorem Stmt.Alike.mono (hle : ρ.Le ρ') {s s' : Stmt} : s.Alike ρ s' → s.Alike ρ' s'
  | .expression he => .expression (he.mono hle)
  | .declare hname hinit => .declare (hname.mono hle) (Expr.option_mono hle hinit)
  | .block hbody => .block (hbody.mono hle)
  | .branch hc hyes hno => .branch (hc.mono hle) (hyes.mono hle) (hno.mono hle)
  | .branchOnly hc hyes => .branchOnly (hc.mono hle) (hyes.mono hle)
  | .loop hc hbody => .loop (hc.mono hle) (hbody.mono hle)
  | .function hname hparams hbody =>
    .function (hname.mono hle) (hparams.imp fun _ _ h => h.mono hle) (hbody.mono hle)
  | .giveBack hword hresult => .giveBack (hword.mono hle) (Expr.option_mono hle hresult)

/-- So do statements in a row. -/
theorem Stmt.AllAlike.mono (hle : ρ.Le ρ') {ss ss' : List Stmt} :
    Stmt.AllAlike ρ ss ss' → Stmt.AllAlike ρ' ss ss'
  | .nil => .nil
  | .cons hs hss => .cons (hs.mono hle) (hss.mono hle)

end

end Mono

end Scriptlet
