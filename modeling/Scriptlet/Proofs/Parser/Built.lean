import Scriptlet.Proofs.Parser.Reply

/-!
# `Scriptlet.Proofs.Parser.Built`: what parsers are built of

All parsers of the grammar are built of a few basic ones (`Parser.Built`): they look at the current
token, ask whether the end has come, go past a token, report an error, stop at one, or go on behind
one. There is one short lemma for each parser that says so (`expression_built`,
`declarations_built` and the lemmas between them). Whatever the basic parsers do, and what stays
true when parsers are put together, is then true of all of them, by induction on how they are built.

* `Cursor.Bisimulation`: a relation between cursors at which the basic parsers do the same.
* `Parser.Built.same`: all parsers do the same at cursors that are so related.
-/

set_option autoImplicit false

namespace Scriptlet

namespace Parser

/-- The parser is built of basic ones. -/
inductive Built : {α : Type} → Parser α → Prop where
  | starve {α : Type} : Built (starve : Parser α)
  | pure {α : Type} (v : α) : Built (pure v)
  | bind {α β : Type} {p : Parser α} {f : α → Parser β} : Built p → (∀ v, Built (f v)) →
      Built (p >>= f)
  | peek : Built peek
  | atEnd : Built atEnd
  | advance : Built advance
  | report (error : StaticError) : Built (report error)
  | fail {α : Type} (defect : Defect) : Built (fail defect : Parser α)
  | recover {α : Type} {p : Parser α} : Built p → Built (recover p)

namespace Built

variable {α β : Type}

/-- Changing a value is giving another one behind the parser. -/
theorem map {p : Parser α} (g : α → β) (hp : Built p) : Built (g <$> p) :=
  .bind hp fun v => .pure (g v)

/-- A choice between two parsers that was made before either of them reads. -/
theorem ite {p q : Parser α} (b : Bool) (hp : Built p) (hq : Built q) :
    Built (if b then p else q) := by
  cases b with
  | true => exact hp
  | false => exact hq

/-- Looking for a kind of token is asking for the end, and looking at the token. -/
theorem check (kind : Kind) : Built (Parser.check kind) := by
  have heq : Parser.check kind = Parser.atEnd >>= fun ends => Parser.peek >>= fun t =>
      Pure.pure (!ends && t.is kind) := rfl
  rw [heq]
  exact .bind .atEnd fun _ => .bind .peek fun _ => .pure _

/-- Taking a token if there is one is looking at it, and going past it. -/
theorem take? (kinds : List Kind) : Built (Parser.take? kinds) := by
  -- A token is seen first, and then passed if it is of one of the kinds.
  have heq : Parser.take? kinds = Parser.atEnd >>= fun ends => Parser.peek >>= fun t =>
      if kinds.any fun kind => !ends && t.is kind then
        Parser.advance >>= fun _ => Pure.pure (some t)
      else Pure.pure none := by
    funext c
    rw [bind_of_clean (atEnd_apply c), bind_of_clean (peek_apply c)]
    unfold Parser.take? Cursor.check
    split <;> rfl
  rw [heq]
  exact .bind .atEnd fun _ => .bind .peek fun _ =>
    .ite _ (.bind .advance fun _ => .pure _) (.pure _)

/-- A token that has to be there is looked for first, and then it is read, or there is an error. -/
theorem demand (kind : Kind) (defect : Defect) : Built (Parser.demand kind defect) := by
  have heq : Parser.demand kind defect = Parser.check kind >>= fun found =>
      if found then Parser.peek >>= fun t => Parser.advance >>= fun _ => Pure.pure t
      else Parser.fail defect := by
    funext c
    rw [bind_of_clean (check_apply kind c)]
    unfold Parser.demand
    split <;> rfl
  rw [heq]
  exact .bind (.check kind) fun _ =>
    .ite _ (.bind .peek fun _ => .bind .advance fun _ => .pure _) (.fail _)

/-- A mark that has to be there is one kind of such token. -/
theorem expect (kind : Kind) (place : String) : Built (Parser.expect kind place) :=
  .demand kind (.expectedToken kind place)

/-- A name that has to be there is another one. -/
theorem expectName (thing : String) : Built (Parser.expectName thing) :=
  .demand .identifier (.expectedName thing)

/-- The limit check reports at the token in sight, if there are too many items. -/
theorem checkLimit (count : Nat) (defect : Defect) : Built (Parser.checkLimit count defect) := by
  unfold Parser.checkLimit
  split
  · exact .bind .peek fun _ => .report _
  · exact .pure _

end Built

/-! ### Expressions -/

mutual

/-- An expression is built of the parsers for its parts, with one step less each, and of one error
that stops nothing. -/
theorem expression_built : ∀ n, Built (expression n)
  | 0 => .starve
  | n + 1 => by
    unfold expression
    refine .bind (binary_built n binaryLevels) fun target => .bind (.take? _) fun equals => ?_
    cases equals with
    | none => exact .pure _
    | some equals =>
        refine .bind (expression_built n) fun value => ?_
        split
        · exact .pure _
        · exact .bind (.report _) fun _ => .pure _

/-- A ladder of levels is an operand and the operators behind it. -/
theorem binary_built : ∀ n levels, Built (binary n levels)
  | 0, _ => .starve
  | n + 1, [] => unary_built n
  | n + 1, level :: tighter =>
    .bind (binary_built n tighter) fun left => binaryRest_built n level tighter left

/-- The operators behind an operand, one after the other. -/
theorem binaryRest_built : ∀ n level tighter left, Built (binaryRest n level tighter left)
  | 0, _, _, _ => .starve
  | n + 1, level, tighter, left => by
    unfold binaryRest
    refine .bind (.take? _) fun op => ?_
    cases op with
    | none => exact .pure _
    | some op => exact .bind (binary_built n tighter) fun right => binaryRest_built n _ _ _

/-- Operators in front, or an operand with its argument lists. -/
theorem unary_built : ∀ n, Built (unary n)
  | 0 => .starve
  | n + 1 => by
    unfold unary
    refine .bind (.take? _) fun op => ?_
    cases op with
    | some op => exact .bind (unary_built n) fun operand => .pure _
    | none => exact .bind (primary_built n) fun callee => calls_built n callee

/-- The argument lists behind a callee. -/
theorem calls_built : ∀ n callee, Built (calls n callee)
  | 0, _ => .starve
  | n + 1, callee => by
    unfold calls
    refine .bind (.take? _) fun opening => ?_
    cases opening with
    | none => exact .pure _
    | some opening =>
        refine .bind (.check _) fun closes => ?_
        -- What follows the arguments, whether there are any or not.
        have hlater : ∀ args, Built (expect (.mark .rightParen) "after arguments" >>= fun paren =>
            calls n (.call callee paren args)) :=
          fun args => .bind (.expect _ _) fun paren => calls_built n _
        cases closes with
        | true => exact .bind (.pure _) hlater
        | false => exact .bind (arguments_built n 0) hlater

/-- Arguments with commas between them. -/
theorem arguments_built : ∀ n count, Built (arguments n count)
  | 0, _ => .starve
  | n + 1, count => by
    unfold arguments
    refine .bind (.checkLimit _ _) fun _ => .bind (expression_built n) fun arg =>
      .bind (.take? _) fun comma => ?_
    cases comma with
    | none => exact .pure _
    | some comma => exact .bind (arguments_built n (count + 1)) fun more => .pure _

/-- An operand is told by the token in sight. -/
theorem primary_built : ∀ n, Built (primary n)
  | 0 => .starve
  | n + 1 => by
    unfold primary
    refine .bind .peek fun token => ?_
    split
    case h_7 =>
      refine .bind (.take? _) fun opening => ?_
      cases opening with
      | none => exact .fail _
      | some opening =>
          exact .bind (expression_built n) fun inner => .bind (.expect _ _) fun _ => .pure _
    case h_8 => exact .fail _
    all_goals exact .bind .advance fun _ => .pure _

end

/-! ### Declarations and statements -/

/-- Parameters with commas between them. -/
theorem parameters_built : ∀ n count, Built (parameters n count)
  | 0, _ => .starve
  | n + 1, count => by
    unfold parameters
    refine .bind (.checkLimit _ _) fun _ => .bind (.expectName _) fun param =>
      .bind (.take? _) fun comma => ?_
    cases comma with
    | none => exact .pure _
    | some comma => exact .bind (parameters_built n (count + 1)) fun more => .pure _

/-- A variable declaration, with an initial value or without one. -/
theorem variableDeclaration_built (n : Nat) : Built (variableDeclaration n) := by
  unfold variableDeclaration
  refine .bind (.expectName _) fun name => .bind (.take? _) fun equals => ?_
  cases equals with
  | none => exact .bind (.pure _) fun init => .bind (.expect _ _) fun _ => .pure _
  | some equals =>
      exact .bind (.map _ (expression_built n)) fun init => .bind (.expect _ _) fun _ => .pure _

/-- An expression and its semicolon. -/
theorem expressionStatement_built (n : Nat) : Built (expressionStatement n) :=
  .bind (expression_built n) fun _ => .bind (.expect _ _) fun _ => .pure _

/-- A clause that may be missing is a choice by the token in sight. -/
theorem expressionBefore_built (n : Nat) (kind : Kind) : Built (expressionBefore n kind) :=
  .bind (.check kind) fun stops => .ite stops (.pure _) (.map _ (expression_built n))

/-- A `return` is such a clause and a semicolon. -/
theorem returnStatement_built (n : Nat) (word : Token) : Built (returnStatement n word) := by
  have heq : returnStatement n word = _ := funext (returnStatement_eq n word)
  rw [heq]
  exact .bind (expressionBefore_built n _) fun result => .bind (.expect _ _) fun _ => .pure _

/-- The first clause of a `for`. -/
theorem forInitializer_built (n : Nat) : Built (forInitializer n) := by
  unfold forInitializer
  refine .bind (.take? _) fun semicolon => ?_
  cases semicolon with
  | some semicolon => exact .pure _
  | none =>
      refine .bind (.take? _) fun word => ?_
      cases word with
      | some word => exact .map _ (variableDeclaration_built n)
      | none => exact .map _ (expressionStatement_built n)

mutual

/-- A declaration is the only parser that goes on behind an error. -/
theorem declaration_built : ∀ n, Built (declaration n)
  | 0 => .starve
  | n + 1 => by
    unfold declaration
    refine .recover (.bind (.take? _) fun word => ?_)
    cases word with
    | none => exact statement_built n
    | some word => exact .ite _ (functionDeclaration_built n) (variableDeclaration_built n)

/-- Declarations are one declaration and then the others, unless the end has come. -/
theorem declarations_built : ∀ n inBlock, Built (declarations n inBlock)
  | 0, _ => .starve
  | n + 1, inBlock => by
    unfold declarations
    refine .bind .atEnd fun ends => .bind (.check _) fun closes => .ite _ (.pure _) ?_
    exact .bind (declaration_built n) fun first =>
      .bind (declarations_built n inBlock) fun more => .pure _

/-- A block is declarations and a closing brace. -/
theorem block_built : ∀ n, Built (block n)
  | 0 => .starve
  | n + 1 => .bind (declarations_built n true) fun _ => .bind (.expect _ _) fun _ => .pure _

/-- A function is a name, parameters and a block. -/
theorem functionDeclaration_built : ∀ n, Built (functionDeclaration n)
  | 0 => .starve
  | n + 1 => by
    unfold functionDeclaration
    refine .bind (.expectName _) fun name => .bind (.expect _ _) fun _ =>
      .bind (.check _) fun closes => ?_
    have hlater : ∀ params, Built (expect (.mark .rightParen) "after parameters" >>= fun _ =>
        expect (.mark .leftBrace) "before function body" >>= fun _ =>
          block n >>= fun body => pure (Stmt.function name params body)) :=
      fun params => .bind (.expect _ _) fun _ => .bind (.expect _ _) fun _ =>
        .bind (block_built n) fun body => .pure _
    cases closes with
    | true => exact .bind (.pure _) hlater
    | false => exact .bind (parameters_built n 0) hlater

/-- A statement is told by the word that opens it. -/
theorem statement_built : ∀ n, Built (statement n)
  | 0 => .starve
  | n + 1 => by
    unfold statement
    refine .bind (.take? _) fun word => ?_
    cases word with
    | none => exact expressionStatement_built n
    | some word =>
        dsimp only
        split
        · exact forStatement_built n
        · exact ifStatement_built n
        · exact returnStatement_built n word
        · exact whileStatement_built n
        · exact .map _ (block_built n)

/-- A `for` loop, clause by clause. -/
theorem forStatement_built : ∀ n, Built (forStatement n)
  | 0 => .starve
  | n + 1 =>
    .bind (.expect _ _) fun _ => .bind (forInitializer_built n) fun _ =>
      .bind (expressionBefore_built n _) fun _ => .bind (.expect _ _) fun _ =>
        .bind (expressionBefore_built n _) fun _ => .bind (.expect _ _) fun _ =>
          .bind (statement_built n) fun _ => .pure _

/-- An `if`, with an `else` or without one. -/
theorem ifStatement_built : ∀ n, Built (ifStatement n)
  | 0 => .starve
  | n + 1 => by
    unfold ifStatement
    refine .bind (.expect _ _) fun _ => .bind (expression_built n) fun condition =>
      .bind (.expect _ _) fun _ => .bind (statement_built n) fun yes =>
        .bind (.take? _) fun word => ?_
    cases word with
    | none => exact .pure _
    | some word => exact .bind (statement_built n) fun no => .pure _

/-- A `while` loop. -/
theorem whileStatement_built : ∀ n, Built (whileStatement n)
  | 0 => .starve
  | n + 1 =>
    .bind (.expect _ _) fun _ => .bind (expression_built n) fun _ =>
      .bind (.expect _ _) fun _ => .bind (statement_built n) fun _ => .pure _

end

end Parser

/-! ### Cursors that parsers cannot tell apart -/

/-- A relation between cursors at which the same is seen, and from which the same ways lead to
cursors that are related again. -/
structure Cursor.Bisimulation (R : Cursor → Cursor → Prop) : Prop where
  peek {c c' : Cursor} : R c c' → c.peek = c'.peek
  atEnd {c c' : Cursor} : R c c' → c.atEnd = c'.atEnd
  advance {c c' : Cursor} : R c c' → R c.advance c'.advance
  resume {c c' : Cursor} : R c c' → R c.resume c'.resume

/-- Replies with the same value and the same errors, at related cursors. -/
inductive Reply.Same {α : Type} (R : Cursor → Cursor → Prop) : Reply α → Reply α → Prop where
  | done {v : α} {errors : List StaticError} {c c' : Cursor} : R c c' →
      Same R (.done v errors c) (.done v errors c')
  | fault {error : StaticError} {errors : List StaticError} {c c' : Cursor} : R c c' →
      Same R (.fault error errors c) (.fault error errors c')
  | starved : Same R .starved .starved

/-- The same errors in front of replies that are the same. -/
theorem Reply.Same.after {α : Type} {R : Cursor → Cursor → Prop} {r r' : Reply α}
    (h : r.Same R r') (early : List StaticError) : (r.after early).Same R (r'.after early) := by
  cases h with
  | done hc => exact .done hc
  | fault hc => exact .fault hc
  | starved => exact .starved

/-- A reply with a value is matched by one with the same value. -/
theorem Reply.Same.of_done {α : Type} {R : Cursor → Cursor → Prop} {r r' : Reply α}
    (h : r.Same R r') {v : α} {errors : List StaticError} {c : Cursor}
    (hr : r = .done v errors c) : ∃ c', r' = .done v errors c' ∧ R c c' := by
  subst hr
  cases h with
  | done hc => exact ⟨_, rfl, hc⟩

/-- At related cursors all parsers do the same. -/
theorem Parser.Built.same {α : Type} {p : Parser α} (hp : p.Built) {R : Cursor → Cursor → Prop}
    (hR : Cursor.Bisimulation R) {c c' : Cursor} (hc : R c c') : (p c).Same R (p c') := by
  -- On how the parser is built.
  induction hp generalizing c c' with
  | starve => exact .starved
  | pure v => exact .done hc
  -- The second parser starts at related cursors again, with the same value.
  | @bind α β p f _ _ ihp ihf =>
      show (Parser.bind p f c).Same R (Parser.bind p f c')
      unfold Parser.bind
      have hreply := ihp hc
      generalize p c = r, p c' = r' at hreply
      cases hreply with
      | done hc₁ => exact (ihf _ hc₁).after _
      | fault hc₁ => exact .fault hc₁
      | starved => exact .starved
  | peek =>
      unfold Parser.peek
      rw [hR.peek hc]
      exact .done hc
  | atEnd =>
      unfold Parser.atEnd
      rw [hR.atEnd hc]
      exact .done hc
  | advance => exact .done (hR.advance hc)
  | report error => exact .done hc
  | fail defect =>
      unfold Parser.fail
      rw [hR.peek hc]
      exact .fault hc
  | @recover α p _ ih =>
      unfold Parser.recover
      have hreply := ih hc
      generalize p c = r, p c' = r' at hreply
      -- Skipping leads to related cursors, and the error that is reported is the same.
      cases hreply with
      | done hc₁ => exact .done hc₁
      | fault hc₁ => exact .done (hR.resume hc₁)
      | starved => exact .starved

end Scriptlet
