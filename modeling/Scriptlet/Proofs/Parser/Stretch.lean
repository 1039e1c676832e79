import Scriptlet.Proofs.Parser.Grammar
import Scriptlet.Proofs.Tree.Within

/-!
# `Scriptlet.Proofs.Parser.Stretch`: each expression has its stretch of tokens

In a program that is spelled by tokens, every expression is spelled by a stretch of them, at
whatever depth it stands (`Program.accounts`). There is one exception: a `for` loop without a
condition has one in its tree that no token spells. It is a constant, and so nothing can go
wrong with it.

The tokens that an expression keeps stand in its stretch, and their kinds are those that the
grammar asks for: `Derives.of_unary`, `Derives.of_binary`, `Derives.of_set`,
`Derives.of_call`, and `Derives.tokens_of_get` for names.
-/

set_option autoImplicit false

namespace Scriptlet.Grammar

/-- A stretch of the tokens spells the expression, at some rung. -/
def Spells (ts : List Token) (x : Expr) : Prop :=
  ∃ r us, us <:+: ts ∧ Derives r us x

/-- A stretch of a stretch is a stretch of the whole, so an expression may be looked for in fewer
tokens. -/
theorem Spells.mono {us ts : List Token} {x : Expr} (h : Spells us x) (hus : us <:+: ts) :
    Spells ts x := by
  obtain ⟨r, vs, hvs, hx⟩ := h
  exact ⟨r, vs, hvs.trans hus, hx⟩

/-! ### Expressions -/

/-- Each item of a list has its stretch. -/
theorem CommaList.infix_of_mem {items : List (List Token)} {ts us : List Token}
    (h : CommaList items ts) (hus : us ∈ items) : us <:+: ts := by
  induction h with
  | none => cases hus
  | one ts =>
      cases List.mem_singleton.1 hus
      exact List.infix_refl _
  | @more ts us' vs rest comma _ _ ih =>
      rcases List.mem_cons.1 hus with rfl | hus
      · exact ⟨[], comma :: vs, by simp⟩
      · exact (ih hus).trans ⟨ts ++ [comma], [], by simp⟩

/-- Each part of an expression has its stretch. -/
theorem Derives.spells_part {r : Rung} {ts : List Token} {e part : Expr} (h : Derives r ts e)
    (hpart : part ∈ e.parts) : Spells ts part := by
  induction h with
  | falsehood | truth | nothing | constant | name => cases hpart
  | @group opening closing ts e _ he _ _ =>
      cases List.mem_singleton.1 hpart
      exact ⟨_, ts, ⟨[opening], [closing], by simp⟩, he⟩
  | @call opening closing fs ts f args hf _ hcommas hargs _ _ _ _ =>
      rcases List.mem_cons.1 hpart with rfl | hpart
      · exact ⟨_, fs, ⟨[], opening :: (ts ++ [closing]), by simp⟩, hf⟩
      · obtain ⟨arg, harg, rfl⟩ := List.mem_map.1 hpart
        have hitem : arg.1 <:+: ts := hcommas.infix_of_mem (List.mem_map.2 ⟨arg, harg, rfl⟩)
        exact ⟨_, arg.1, hitem.trans ⟨fs ++ [opening], [closing], by simp⟩, hargs arg harg⟩
  | @unary op ts e _ he _ =>
      cases List.mem_singleton.1 hpart
      exact ⟨_, ts, ⟨[op], [], by simp⟩, he⟩
  | @logical r op ls rs a b _ ha _ hb _ _ | @binary r op ls rs a b _ ha _ hb _ _ =>
      simp only [Expr.parts, List.mem_cons, List.not_mem_nil, or_false] at hpart
      rcases hpart with rfl | rfl
      · exact ⟨_, ls, ⟨[], op :: rs, by simp⟩, ha⟩
      · exact ⟨_, rs, ⟨ls ++ [op], [], by simp⟩, hb⟩
  | @assign name equals ts e _ _ he _ =>
      cases List.mem_singleton.1 hpart
      exact ⟨_, ts, ⟨[name, equals], [], by simp⟩, he⟩
  | lift _ ih => exact ih hpart

/-- However deep an expression stands in another one, the tokens of the outer one have a stretch
that spells it. -/
theorem Derives.spells {r : Rung} {ts : List Token} {e x : Expr} (h : Derives r ts e)
    (hx : x.Within e) : Spells ts x := by
  induction hx generalizing r ts with
  | self => exact ⟨r, ts, List.infix_refl _, h⟩
  | part hpart _ ih =>
      obtain ⟨_, us, hus, hpart⟩ := h.spells_part hpart
      exact (ih hpart).mono hus

/-! ### Tokens in expressions -/

/-- The operator of a unary expression is one of its tokens, and it is one of the two signs. -/
theorem Derives.of_unary {r : Rung} {ts : List Token} {op : Token} {e : Expr}
    (h : Derives r ts (.unary op e)) : op ∈ ts ∧ op.kind ∈ [.mark .bang, .mark .minus] := by
  -- The rule for signs may have been used on a tighter rung, so `cases` would not do.
  generalize hx : Expr.unary op e = x at h
  induction h with
  | unary hop =>
      cases hx
      exact ⟨List.mem_cons_self, hop⟩
  | lift _ ih => exact ih hx
  | _ => cases hx

/-- The operator of a binary expression is one of its tokens, and an operator of some rung of
arithmetic or of comparison. -/
theorem Derives.of_binary {r : Rung} {ts : List Token} {op : Token} {a b : Expr}
    (h : Derives r ts (.binary a op b)) :
    op ∈ ts ∧ ∃ r : Rung, r.isLogical = false ∧ op.kind ∈ r.operators := by
  generalize hx : Expr.binary a op b = x at h
  induction h with
  | @binary r op ls rs a b hr _ hop _ _ _ =>
      cases hx
      exact ⟨List.mem_append_right _ List.mem_cons_self, r, hr, hop⟩
  | lift _ ih => exact ih hx
  | _ => cases hx

/-- The name that is assigned to is one of the tokens of an assignment, and it is an identifier. -/
theorem Derives.of_set {r : Rung} {ts : List Token} {name : Token} {e : Expr}
    (h : Derives r ts (.set name e)) : name ∈ ts ∧ name.kind = .identifier := by
  generalize hx : Expr.set name e = x at h
  induction h with
  | assign hname =>
      cases hx
      exact ⟨List.mem_cons_self, hname⟩
  | lift _ ih => exact ih hx
  | _ => cases hx

/-- A call ends with the parenthesis that it keeps. -/
theorem Derives.of_call {r : Rung} {ts : List Token} {f : Expr} {paren : Token}
    {args : List Expr} (h : Derives r ts (.call f paren args)) :
    paren.kind = .mark .rightParen ∧
      ∃ us, ts = us ++ [paren] ∧ Derives .call ts (.call f paren args) := by
  generalize hx : Expr.call f paren args = x at h
  induction h with
  | @call opening closing fs ts f args hf hopening hcommas hargs hsize hclosing _ _ =>
      cases hx
      exact ⟨hclosing, fs ++ opening :: ts, by simp,
        .call hf hopening hcommas hargs hsize hclosing⟩
  | lift _ ih => exact ih hx
  | _ => cases hx

/-! ### Statements -/

/-- The expression has a stretch of the tokens, or it is the condition of a `for` loop that
has none. -/
def Accounts (ts : List Token) (x : Expr) : Prop :=
  x = .literal (.bool true) ∨ Spells ts x

/-- As for expressions with a stretch: more tokens around it do no harm. -/
theorem Accounts.mono {us ts : List Token} {x : Expr} (h : Accounts us x) (hus : us <:+: ts) :
    Accounts ts x :=
  h.imp_right fun h => h.mono hus

/-- The parts of an expression whose tokens are a stretch of others. -/
theorem Derives.accounts {r : Rung} {us ts : List Token} {e x : Expr} (h : Derives r us e)
    (hus : us <:+: ts) (hx : x.Within e) : Accounts ts x :=
  .inr ((h.spells hx).mono hus)

/-- A clause that is missing has no parts, and one that is present is an expression. -/
theorem Clause.accounts {us ts : List Token} {e : Option Expr} {x : Expr} (h : Clause us e)
    (hus : us <:+: ts) (hx : ∃ e' ∈ e, x.Within e') : Accounts ts x := by
  obtain ⟨e', he', hx⟩ := hx
  cases h with
  | absent => cases he'
  | present h =>
      cases Option.mem_some.1 he'
      exact h.accounts hus hx

/-- Behind `var`, only a value has expressions in it. -/
theorem Binding.accounts {us ts : List Token} {s : Stmt} {x : Expr} (h : Binding us s)
    (hus : us <:+: ts) (hx : x.In s) : Accounts ts x := by
  cases h with
  | bare =>
      obtain ⟨_, hnone, -⟩ := Expr.in_declare.1 hx
      cases hnone
  | @valued name equals semicolon vs e _ _ he _ =>
      obtain ⟨_, hsome, hx⟩ := Expr.in_declare.1 hx
      cases Option.mem_some.1 hsome
      exact he.accounts (.trans ⟨[name, equals], [semicolon], by simp⟩ hus) hx

/-- In the first clause of a `for` loop, expressions stand in a declaration or are the clause
itself. -/
theorem Initializer.accounts {us ts : List Token} {init : Option Stmt} {x : Expr}
    (h : Initializer us init) (hus : us <:+: ts) (hx : ∃ s ∈ init, x.In s) :
    Accounts ts x := by
  obtain ⟨s, hs, hx⟩ := hx
  cases h with
  | absent => cases hs
  | @binding word vs s _ h =>
      cases Option.mem_some.1 hs
      exact h.accounts (.trans ⟨[word], [], by simp⟩ hus) hx
  | @expression semicolon vs e h _ =>
      cases Option.mem_some.1 hs
      exact h.accounts (.trans ⟨[], [semicolon], by simp⟩ hus) (Expr.in_expression.1 hx)

/-- The two parts of the loop of a `for` loop, each with what stands for a clause that is
missing. -/
theorem roundsTree_eq (condition increment : Option Expr) (body : Stmt) :
    roundsTree condition increment body = .loop (condition.getD (.literal (.bool true)))
      (increment.elim body fun e => .block [body, .expression e]) := by
  cases condition <;> cases increment <;> rfl

/-- An expression in the loop of a `for` loop is the condition that stands in for a missing one, or
it belongs to one of the clauses or to the body. -/
theorem in_roundsTree {condition increment : Option Expr} {body : Stmt} {x : Expr}
    (h : x.In (roundsTree condition increment body)) :
    x = .literal (.bool true) ∨ (∃ e ∈ condition, x.Within e) ∨
      (∃ e ∈ increment, x.Within e) ∨ x.In body := by
  rw [roundsTree_eq] at h
  -- A missing condition is a constant of the tree. This is the only expression that comes from no
  -- token.
  rcases Expr.in_loop.1 h with h | h
  · cases condition with
    | none => exact .inl (Expr.within_literal.1 h)
    | some condition => exact .inr (.inl ⟨_, rfl, h⟩)
  · cases increment with
    | none => exact .inr (.inr (.inr h))
    | some increment =>
        have hround : x.In body ∨ x.Within increment := by
          simpa [Expr.in_block, Expr.in_expression] using h
        rcases hround with h | h
        · exact .inr (.inr (.inr h))
        · exact .inr (.inr (.inl ⟨_, rfl, h⟩))

/-- Where an expression in the tree of a `for` loop can be. -/
theorem in_forTree {init : Option Stmt} {condition increment : Option Expr} {body : Stmt}
    {x : Expr} (h : x.In (forTree init condition increment body)) :
    x = .literal (.bool true) ∨ (∃ s ∈ init, x.In s) ∨ (∃ e ∈ condition, x.Within e) ∨
      (∃ e ∈ increment, x.Within e) ∨ x.In body := by
  cases init with
  | none =>
      rcases in_roundsTree h with h | h
      · exact .inl h
      · exact .inr (.inr h)
  | some init =>
      obtain ⟨s, hs, hx⟩ := Expr.in_block.1 h
      simp only [List.mem_cons, List.not_mem_nil, or_false] at hs
      rcases hs with rfl | rfl
      · exact .inr (.inl ⟨_, rfl, hx⟩)
      · rcases in_roundsTree hx with h | h
        · exact .inl h
        · exact .inr (.inr h)

mutual

/-- The parts of a declaration. Its inner rows are stretches of its tokens, so what they account for
the whole accounts for. -/
theorem Declaration.accounts {x : Expr} : ∀ {ts rest : List Token} {s : Stmt},
    Declaration ts rest s → x.In s → Accounts ts x
  | _, _, _, @Declaration.function word name opening closing left right _ ps ts _ _ _ _ _ _ _ _
      _ _ hbody _, hx =>
    (hbody.accounts (Expr.in_function.1 hx)).mono
      ⟨word :: name :: opening :: (ps ++ [closing, left]), [right], by simp⟩
  | _, _, _, @Declaration.binding word _ _ _ _ h, hx => h.accounts ⟨[word], [], by simp⟩ hx
  | _, _, _, .statement h, hx => h.accounts hx

/-- The parts of a statement, by the rule that spells it. -/
theorem Statement.accounts {x : Expr} : ∀ {ts rest : List Token} {s : Stmt},
    Statement ts rest s → x.In s → Accounts ts x
  | _, _, _, @Statement.expression semicolon _ _ _ he _, hx =>
    he.accounts ⟨[], [semicolon], by simp⟩ (Expr.in_expression.1 hx)
  | _, _, _, @Statement.block left right _ _ _ _ hbody _, hx =>
    (hbody.accounts (Expr.in_block.1 hx)).mono ⟨[left], [right], by simp⟩
  | _, _, _, @Statement.ifThen word opening closing cs ts _ _ _ _ _ hc _ hyes _, hx => by
    rcases Expr.in_branch.1 hx with hx | hx | ⟨_, hnone, -⟩
    · exact hc.accounts ⟨[word, opening], closing :: ts, by simp⟩ hx
    · exact (hyes.accounts hx).mono ⟨word :: opening :: (cs ++ [closing]), [], by simp⟩
    · cases hnone
  | _, _, _, @Statement.ifElse word opening closing otherwise cs ts us _ _ _ _ _ _ hc _ hyes _
      hno, hx => by
    rcases Expr.in_branch.1 hx with hx | hx | ⟨_, hsome, hx⟩
    · exact hc.accounts ⟨[word, opening], closing :: (ts ++ otherwise :: us), by simp⟩ hx
    · exact (hyes.accounts hx).mono
        ⟨word :: opening :: (cs ++ [closing]), otherwise :: us, by simp⟩
    · cases Option.mem_some.1 hsome
      exact (hno.accounts hx).mono
        ⟨word :: opening :: (cs ++ closing :: (ts ++ [otherwise])), [], by simp⟩
  | _, _, _, @Statement.loop word opening closing cs ts _ _ _ _ _ hc _ hbody, hx => by
    rcases Expr.in_loop.1 hx with hx | hx
    · exact hc.accounts ⟨[word, opening], closing :: ts, by simp⟩ hx
    · exact (hbody.accounts hx).mono ⟨word :: opening :: (cs ++ [closing]), [], by simp⟩
  | _, _, _, @Statement.forLoop word opening semicolon closing ds cs is ts _ _ _ _ _ _ _ hinit
      hcondition _ hincrement _ hbody, hx => by
    rcases in_forTree hx with rfl | hx | hx | hx | hx
    -- Only here there may be an expression without tokens.
    · exact .inl rfl
    · exact hinit.accounts
        ⟨[word, opening], cs ++ semicolon :: (is ++ closing :: ts), by simp⟩ hx
    · exact hcondition.accounts
        ⟨word :: opening :: ds, semicolon :: (is ++ closing :: ts), by simp⟩ hx
    · exact hincrement.accounts
        ⟨word :: opening :: (ds ++ (cs ++ [semicolon])), closing :: ts, by simp⟩ hx
    · exact (hbody.accounts hx).mono
        ⟨word :: opening :: (ds ++ (cs ++ semicolon :: (is ++ [closing]))), [], by simp⟩
  | _, _, _, @Statement.giveBack word semicolon _ _ _ _ hresult _, hx =>
    hresult.accounts ⟨[word], [semicolon], by simp⟩ (Expr.in_giveBack.1 hx)

/-- The parts of declarations in a row, each in the stretch of its own declaration. -/
theorem Declarations.accounts {x : Expr} : ∀ {ts rest : List Token} {ss : List Stmt},
    Declarations ts rest ss → (∃ s ∈ ss, x.In s) → Accounts ts x
  | _, _, _, .nil, ⟨_, hs, _⟩ => nomatch hs
  | _, _, _, @Declarations.cons ts us _ _ _ h hss, ⟨s, hs, hx⟩ => by
    rcases List.mem_cons.1 hs with heq | hs
    · exact (h.accounts (heq ▸ hx)).mono ⟨[], us, by simp⟩
    · exact (hss.accounts ⟨s, hs, hx⟩).mono ⟨ts, [], by simp⟩

end

/-- Every expression of a program has its stretch of the tokens, or is a constant that no
token spells. -/
theorem Program.accounts {ts : List Token} {p : List Stmt} (h : Program ts p) {s : Stmt}
    (hs : s ∈ p) {x : Expr} (hx : x.In s) : Accounts ts x := by
  cases h with
  | @intro ts final _ h _ => exact (h.accounts ⟨s, hs, hx⟩).mono ⟨[], [final], by simp⟩

end Scriptlet.Grammar
