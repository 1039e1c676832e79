import Scriptlet.Proofs.Run.Upkeep

/-!
# `Scriptlet.Proofs.Tree.Within`: the expressions in a tree

`Expr.Within x e`: the expression `x` is `e`, or a part of it at any depth. `Expr.In x s`: it
stands anywhere in the statement `s`, bodies of functions included. The lemmas say for each
kind of statement where an expression in it can be.
-/

set_option autoImplicit false

namespace Scriptlet.Expr

/-- The expressions in an expression, itself among them. -/
inductive Within (x : Expr) : Expr → Prop where
  | self : Within x x
  | part {e part : Expr} : part ∈ e.parts → Within x part → Within x e

/-- The expressions in a statement. -/
inductive In (x : Expr) : Stmt → Prop where
  | expr {s : Stmt} {e : Expr} : e ∈ s.exprs → x.Within e → In x s
  | part {s part : Stmt} : part ∈ s.parts → In x part → In x s

variable {x : Expr}

/-- An expression in a statement is right below it, or in one of its parts. -/
theorem in_iff {s : Stmt} :
    x.In s ↔ (∃ e ∈ s.exprs, x.Within e) ∨ ∃ part ∈ s.parts, x.In part := by
  constructor
  · rintro (⟨he, hx⟩ | ⟨hpart, hx⟩)
    · exact .inl ⟨_, he, hx⟩
    · exact .inr ⟨_, hpart, hx⟩
  · rintro (⟨e, he, hx⟩ | ⟨part, hpart, hx⟩)
    · exact .expr he hx
    · exact .part hpart hx

/-- A constant has no parts. -/
theorem within_literal {value : Literal} : x.Within (.literal value) ↔ x = .literal value := by
  constructor
  · rintro (_ | ⟨hpart, -⟩)
    · rfl
    · cases hpart
  · rintro rfl
    exact .self

/-- In a statement of one expression, those in the expression. -/
theorem in_expression {e : Expr} : x.In (.expression e) ↔ x.Within e := by
  rw [in_iff]
  simp [Stmt.exprs, Stmt.parts]

/-- In a declaration of a variable, those in its value. -/
theorem in_declare {name : Token} {init : Option Expr} :
    x.In (.declare name init) ↔ ∃ e ∈ init, x.Within e := by
  rw [in_iff]
  simp [Stmt.exprs, Stmt.parts]

/-- Behind `return`, those in what is given back. -/
theorem in_giveBack {word : Token} {result : Option Expr} :
    x.In (.giveBack word result) ↔ ∃ e ∈ result, x.Within e := by
  rw [in_iff]
  simp [Stmt.exprs, Stmt.parts]

/-- In a block, those in its statements. -/
theorem in_block {body : List Stmt} : x.In (.block body) ↔ ∃ s ∈ body, x.In s := by
  rw [in_iff]
  simp [Stmt.exprs, Stmt.parts]

/-- In a function, those in its body. -/
theorem in_function {name : Token} {params : List Token} {body : List Stmt} :
    x.In (.function name params body) ↔ ∃ s ∈ body, x.In s := by
  rw [in_iff]
  simp [Stmt.exprs, Stmt.parts]

/-- In a branch, those in the condition and in both ways. -/
theorem in_branch {c : Expr} {yes : Stmt} {no : Option Stmt} :
    x.In (.branch c yes no) ↔ x.Within c ∨ x.In yes ∨ ∃ s ∈ no, x.In s := by
  rw [in_iff]
  simp [Stmt.exprs, Stmt.parts]

/-- In a loop, those in the condition and in the body. -/
theorem in_loop {c : Expr} {body : Stmt} :
    x.In (.loop c body) ↔ x.Within c ∨ x.In body := by
  rw [in_iff]
  simp [Stmt.exprs, Stmt.parts]

end Scriptlet.Expr
