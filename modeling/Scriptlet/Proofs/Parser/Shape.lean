import Scriptlet.Proofs.Parser.Stretch

/-!
# `Scriptlet.Proofs.Parser.Shape`: where the parts of a tree may stand

Which trees the grammar has, said without any tokens. `Expr.Stands` says on which rung of the
ladder an expression may stand without parentheses around it: operands on the rung that their
operator asks for, assignments on the loosest one. `Stmt.IsStatement` and `Stmt.IsDeclaration`
say where a tree may stand among statements: branches and bodies of loops are no declarations,
and no branch in front of `else` ends with an `if` that would take the `else` (`Stmt.endsOpen`).

Every tree that tokens spell is of this shape (`Declarations.isDeclaration`). A `for` loop is no
exception, although it has no tree of its own.
-/

set_option autoImplicit false

namespace Scriptlet

open Grammar

/-- The expression may stand on a rung of the ladder without parentheses around it. -/
inductive Expr.Stands : Rung → Expr → Prop where
  | literal {value : Literal} : Stands .primary (.literal value)
  | name {t : Token} : t.kind = .identifier → Stands .primary (.get t)
  | group {e : Expr} : Stands .assignment e → Stands .primary (.group e)
  | call {f : Expr} {paren : Token} {args : List Expr} : Stands .call f →
      paren.kind = .mark .rightParen → (∀ arg ∈ args, Stands .assignment arg) →
      args.length ≤ 255 → Stands .call (.call f paren args)
  | unary {op : Token} {e : Expr} : op.kind ∈ [.mark .bang, .mark .minus] → Stands .unary e →
      Stands .unary (.unary op e)
  | logical {r : Rung} {op : Token} {a b : Expr} : r.isLogical = true → Stands r a →
      op.kind ∈ r.operators → Stands r.tighter b → Stands r (.logical a op b)
  | binary {r : Rung} {op : Token} {a b : Expr} : r.isLogical = false → Stands r a →
      op.kind ∈ r.operators → Stands r.tighter b → Stands r (.binary a op b)
  | assign {name : Token} {e : Expr} : name.kind = .identifier → Stands .assignment e →
      Stands .assignment (.set name e)
  /-- What binds more tightly may stand where something looser may. -/
  | lift {r : Rung} {e : Expr} : Stands r.tighter e → Stands r e

/-- Whether the statement ends with an `if` that has no `else`. -/
def Stmt.endsOpen : Stmt → Bool
  | .branch _ _ none => true
  | .branch _ _ (some no) => no.endsOpen
  | .loop _ body => body.endsOpen
  | _ => false

mutual

/-- The tree may stand where a declaration may. -/
inductive Stmt.IsDeclaration : Stmt → Prop where
  | function {name : Token} {params : List Token} {body : List Stmt} :
      name.kind = .identifier → (∀ p ∈ params, p.kind = .identifier) → params.length ≤ 255 →
      (∀ s ∈ body, s.IsDeclaration) → IsDeclaration (.function name params body)
  | binding {name : Token} {init : Option Expr} : name.kind = .identifier →
      (∀ e ∈ init, e.Stands .assignment) → IsDeclaration (.declare name init)
  | statement {s : Stmt} : s.IsStatement → IsDeclaration s

/-- The tree may stand where a statement may. -/
inductive Stmt.IsStatement : Stmt → Prop where
  | expression {e : Expr} : e.Stands .assignment → IsStatement (.expression e)
  | block {body : List Stmt} : (∀ s ∈ body, s.IsDeclaration) → IsStatement (.block body)
  | ifThen {c : Expr} {yes : Stmt} : c.Stands .assignment → yes.IsStatement →
      IsStatement (.branch c yes none)
  /-- The `else` is not taken by an `if` in front of it. -/
  | ifElse {c : Expr} {yes no : Stmt} : c.Stands .assignment → yes.IsStatement →
      yes.endsOpen = false → no.IsStatement → IsStatement (.branch c yes (some no))
  | loop {c : Expr} {body : Stmt} : c.Stands .assignment → body.IsStatement →
      IsStatement (.loop c body)
  | giveBack {word : Token} {result : Option Expr} : word.kind = .keyword .returnWord →
      (∀ e ∈ result, e.Stands .assignment) → IsStatement (.giveBack word result)

end

/-! ### The grammar gives no other trees -/

namespace Grammar

/-- An expression stands on the rung on which it was derived. -/
theorem Derives.stands {r : Rung} {ts : List Token} {e : Expr} (h : Derives r ts e) :
    e.Stands r := by
  induction h with
  | falsehood | truth | nothing | constant => exact .literal
  | name ht => exact .name ht
  | group _ _ _ ih => exact .group ih
  | call _ _ _ _ hsize hclosing ihf ihargs =>
      refine .call ihf hclosing (fun arg harg => ?_) (by simpa using hsize)
      obtain ⟨spelled, hspelled, rfl⟩ := List.mem_map.1 harg
      exact ihargs spelled hspelled
  | unary hop _ ih => exact .unary hop ih
  | logical hr _ hop _ iha ihb => exact .logical hr iha hop ihb
  | binary hr _ hop _ iha ihb => exact .binary hr iha hop ihb
  | assign hname _ _ ih => exact .assign hname ih
  | lift _ ih => exact .lift ih

/-- A clause that is present is an expression on the loosest rung. -/
theorem Clause.stands {ts : List Token} {e : Option Expr} (h : Clause ts e) :
    ∀ x ∈ e, x.Stands .assignment := by
  cases h with
  | absent => nofun
  | present he =>
      rintro _ ⟨⟩
      exact he.stands

/-- What `var` is followed by is a declaration. -/
theorem Binding.isDeclaration {ts : List Token} {s : Stmt} (h : Binding ts s) :
    s.IsDeclaration := by
  cases h with
  | bare hname _ => exact .binding hname nofun
  | valued hname _ he _ =>
      refine .binding hname ?_
      rintro _ ⟨⟩
      exact he.stands

/-- The first clause of a `for` loop is a declaration of a variable or an expression. -/
theorem Initializer.isDeclaration {ts : List Token} {init : Option Stmt}
    (h : Initializer ts init) : ∀ s ∈ init, s.IsDeclaration := by
  cases h with
  | absent => nofun
  | binding _ hbinding =>
      rintro _ ⟨⟩
      exact hbinding.isDeclaration
  | expression he _ =>
      rintro _ ⟨⟩
      exact .statement (.expression he.stands)

/-- A condition that is missing stands where one may. -/
theorem stands_true : (Expr.literal (.bool true)).Stands .assignment :=
  .lift (.lift (.lift (.lift (.lift (.lift (.lift (.lift (.lift .literal))))))))

/-- The loop of a `for` loop is a statement, whichever of its clauses are missing. -/
theorem isStatement_roundsTree {condition increment : Option Expr} {body : Stmt}
    (hcondition : ∀ e ∈ condition, e.Stands .assignment)
    (hincrement : ∀ e ∈ increment, e.Stands .assignment) (hbody : body.IsStatement) :
    (roundsTree condition increment body).IsStatement := by
  rw [roundsTree_eq]
  refine .loop ?_ ?_
  · cases condition with
    | none => exact stands_true
    | some c => exact hcondition c rfl
  · cases increment with
    | none => exact hbody
    | some e =>
        refine .block ?_
        simp only [List.forall_mem_cons]
        exact ⟨.statement hbody, .statement (.expression (hincrement e rfl)),
          List.forall_mem_nil _⟩

/-- What a `for` loop spells is a statement. -/
theorem isStatement_forTree {init : Option Stmt} {condition increment : Option Expr}
    {body : Stmt} (hinit : ∀ s ∈ init, s.IsDeclaration)
    (hcondition : ∀ e ∈ condition, e.Stands .assignment)
    (hincrement : ∀ e ∈ increment, e.Stands .assignment) (hbody : body.IsStatement) :
    (forTree init condition increment body).IsStatement := by
  have hrounds := isStatement_roundsTree hcondition hincrement hbody
  cases init with
  | none => exact hrounds
  | some s =>
      refine .block ?_
      simp only [List.forall_mem_cons]
      exact ⟨hinit s rfl, .statement hrounds, List.forall_mem_nil _⟩

/-- It ends as its body does, or with a brace. -/
theorem endsOpen_forTree {init : Option Stmt} {condition increment : Option Expr} {body : Stmt}
    (h : body.endsOpen = false) : (forTree init condition increment body).endsOpen = false := by
  cases init with
  | some => rfl
  | none =>
      rw [forTree, roundsTree_eq]
      cases increment with
      | none => exact h
      | some => rfl

mutual

/-- What tokens spell as a declaration may stand where a declaration may. -/
theorem Declaration.isDeclaration : ∀ {ts rest : List Token} {s : Stmt},
    Declaration ts rest s → s.IsDeclaration
  | _, _, _, .function _ hname _ _ hnames hsize _ _ hbody _ =>
    .function hname hnames hsize hbody.isDeclaration
  | _, _, _, .binding _ hbinding => hbinding.isDeclaration
  | _, _, _, .statement hs => .statement hs.isStatement.1

/-- A statement in front of `else` does not end with an `if` that would take it. -/
theorem Statement.isStatement : ∀ {ts rest : List Token} {s : Stmt}, Statement ts rest s →
    s.IsStatement ∧ (StartsWith [.keyword .elseWord] rest → s.endsOpen = false)
  | _, _, _, .expression he _ => ⟨.expression he.stands, fun _ => rfl⟩
  | _, _, _, .block _ hbody _ => ⟨.block hbody.isDeclaration, fun _ => rfl⟩
  | _, _, _, .ifThen _ _ hc _ hyes helse =>
    -- The rule asks that no `else` follows, so there is nothing to show of what does.
    ⟨.ifThen hc.stands hyes.isStatement.1, fun hstarts => absurd hstarts helse⟩
  | _, _, _, .ifElse _ _ hc _ hyes helse hno =>
    -- What follows the first branch is this very `else`.
    have hclosed := hyes.isStatement.2 (by simp [helse])
    ⟨.ifElse hc.stands hyes.isStatement.1 hclosed hno.isStatement.1, hno.isStatement.2⟩
  | _, _, _, .loop _ _ hc _ hbody =>
    ⟨.loop hc.stands hbody.isStatement.1, hbody.isStatement.2⟩
  | _, _, _, .forLoop _ _ hinit hcondition _ hincrement _ hbody =>
    ⟨isStatement_forTree hinit.isDeclaration hcondition.stands hincrement.stands
      hbody.isStatement.1, fun hstarts => endsOpen_forTree (hbody.isStatement.2 hstarts)⟩
  | _, _, _, .giveBack hword hresult _ => ⟨.giveBack hword hresult.stands, fun _ => rfl⟩

/-- What tokens spell as declarations are declarations one by one. -/
theorem Declarations.isDeclaration : ∀ {ts rest : List Token} {ss : List Stmt},
    Declarations ts rest ss → ∀ s ∈ ss, s.IsDeclaration
  | _, _, _, .nil => List.forall_mem_nil _
  | _, _, _, .cons hs hss =>
    List.forall_mem_cons.2 ⟨hs.isDeclaration, hss.isDeclaration⟩

end

end Grammar

end Scriptlet
