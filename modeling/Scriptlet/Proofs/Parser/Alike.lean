import Scriptlet.Proofs.Parser.Reply
import Scriptlet.Proofs.Tree.Alike

/-!
# `Scriptlet.Proofs.Parser.Alike`: alike tokens make alike trees

Parsers look at the kinds of tokens and at the constants in them, and put tokens into trees
and into errors. So lists of alike tokens are parsed in the same way, into alike trees and
alike errors (`parse_alike`). There is one lemma for each parser, by induction on the supply
of steps, and one rule for each way to put parsers together.

The list need not make any sense: parsers that fail, and go on behind an error, do so at the
same places.
-/

set_option autoImplicit false

namespace Scriptlet

/-! ### Cursors -/

/-- Cursors with alike tokens. -/
structure Cursor.Alike (ρ : Likeness) (c c' : Cursor) : Prop where
  last : c.last.Alike ρ c'.last
  rest : List.Forall₂ (Token.Alike ρ) c.rest c'.rest

namespace Cursor.Alike

variable {ρ : Likeness} {c c' : Cursor}

/-- Alike tokens pass the same tests of their kind. -/
theorem is_eq {t t' : Token} (h : t.Alike ρ t') (kind : Kind) : t.is kind = t'.is kind := by
  unfold Token.is
  rw [h.kind]

/-- The tokens in sight are alike, also behind the end of the lists, where the last ones stay in
sight. -/
theorem peek (h : c.Alike ρ c') : c.peek.Alike ρ c'.peek := by
  obtain ⟨last, rest⟩ := c
  obtain ⟨last', rest'⟩ := c'
  cases h.rest with
  | nil => exact h.last
  | cons ht _ => exact ht

/-- Alike cursors come to the end at the same place. -/
theorem atEnd_eq (h : c.Alike ρ c') : c.atEnd = c'.atEnd := by
  obtain ⟨last, rest⟩ := c
  obtain ⟨last', rest'⟩ := c'
  cases h.rest with
  | nil => rfl
  | cons ht _ => exact is_eq ht .eof

/-- What can be read at one cursor can be read at the other. -/
theorem check_eq (h : c.Alike ρ c') (kind : Kind) : c.check kind = c'.check kind := by
  unfold check
  rw [h.atEnd_eq, is_eq h.peek kind]

/-- Going past a token keeps cursors alike. -/
theorem advance (h : c.Alike ρ c') : c.advance.Alike ρ c'.advance := by
  obtain ⟨last, rest⟩ := c
  obtain ⟨last', rest'⟩ := c'
  unfold Cursor.advance
  rw [h.atEnd_eq]
  split
  · exact h
  · refine ⟨h.last, ?_⟩
    cases h.rest with
    | nil => exact .nil
    | cons _ hrest => exact hrest

/-- Skipping stops at the same place, since it looks for semicolons and words that open
statements. -/
theorem skipStatement {ts ts' : List Token} (h : List.Forall₂ (Token.Alike ρ) ts ts')
    {t t' : Token} (ht : t.Alike ρ t') :
    List.Forall₂ (Token.Alike ρ) (skipStatement t ts) (Cursor.skipStatement t' ts') := by
  induction h generalizing t t' with
  | nil => exact .nil
  | cons hnext hrest ih =>
      unfold Cursor.skipStatement
      rw [is_eq hnext, is_eq ht, hnext.kind]
      split
      · exact .cons hnext hrest
      · exact ih hnext

/-- So recovery goes on at the same place. -/
theorem resume (h : c.Alike ρ c') : c.resume.Alike ρ c'.resume := by
  obtain ⟨last, rest⟩ := c
  obtain ⟨last', rest'⟩ := c'
  unfold Cursor.resume
  cases h.rest with
  | nil => exact h
  | cons ht hrest =>
      simp only [is_eq ht]
      split
      · exact h
      · exact ⟨h.last, skipStatement hrest ht⟩

end Cursor.Alike

/-! ### Replies and parsers -/

/-- Replies of the same sort, with alike errors and cursors, and values as `A` says. -/
inductive Reply.Alike {α : Type} (ρ : Likeness) (A : α → α → Prop) :
    Reply α → Reply α → Prop where
  | done {v v' : α} {es es' : List StaticError} {c c' : Cursor} : A v v' →
      List.Forall₂ (StaticError.Alike ρ) es es' → c.Alike ρ c' →
      Reply.Alike ρ A (.done v es c) (.done v' es' c')
  | fault {e e' : StaticError} {es es' : List StaticError} {c c' : Cursor} : e.Alike ρ e' →
      List.Forall₂ (StaticError.Alike ρ) es es' → c.Alike ρ c' →
      Reply.Alike ρ A (.fault e es c) (.fault e' es' c')
  | starved : Reply.Alike ρ A .starved .starved

/-- What is known of two values may be weakened. -/
theorem Reply.Alike.imp {α : Type} {ρ : Likeness} {A A' : α → α → Prop} {r r' : Reply α}
    (h : r.Alike ρ A r') (hA : ∀ v v', A v v' → A' v v') : r.Alike ρ A' r' := by
  cases h with
  | done hv hes hc => exact .done (hA _ _ hv) hes hc
  | fault he hes hc => exact .fault he hes hc
  | starved => exact .starved

/-- Alike errors in front of alike replies. -/
theorem Reply.Alike.after {α : Type} {ρ : Likeness} {A : α → α → Prop} {r r' : Reply α}
    (h : r.Alike ρ A r') {es es' : List StaticError}
    (hes : List.Forall₂ (StaticError.Alike ρ) es es') :
    (r.after es).Alike ρ A (r'.after es') := by
  cases h with
  -- An error that stops a parser comes behind the ones that were found before.
  | done hv hlate hc => exact .done hv (List.rel_append hes hlate) hc
  | fault he hlate hc => exact .fault he (List.rel_append hes hlate) hc
  | starved => exact .starved

namespace Parser

variable {α β : Type} {ρ : Likeness} {A : α → α → Prop} {B : β → β → Prop}

/-- Parsers that reply alike where they read alike tokens. -/
def Alike (ρ : Likeness) (A : α → α → Prop) (p p' : Parser α) : Prop :=
  ∀ c c', c.Alike ρ c' → (p c).Alike ρ A (p' c')

/-- Parsers without steps reply alike, with nothing. -/
theorem alike_starve : Alike ρ A starve starve := fun _ _ _ => .starved

/-- The same values are given, up to likeness, and nothing is read. -/
theorem alike_pure {v v' : α} (h : A v v') : Alike ρ A (pure v) (pure v') :=
  fun _ _ hc => .done h .nil hc

/-- The rule for two parsers in a row. -/
theorem alike_bind {p p' : Parser α} {f f' : α → Parser β} (hp : Alike ρ A p p')
    (hf : ∀ v v', A v v' → Alike ρ B (f v) (f' v')) :
    Alike ρ B (p >>= f) (p' >>= f') := by
  intro c c' hc
  show (Parser.bind p f c).Alike ρ B (Parser.bind p' f' c')
  unfold Parser.bind
  have hreply := hp c c' hc
  generalize p c = r, p' c' = r' at hreply
  cases hreply with
  | done hv hearly hc₁ => exact (hf _ _ hv _ _ hc₁).after hearly
  | fault he hearly hc₁ => exact .fault he hearly hc₁
  | starved => exact .starved

/-- The rule for a value that is changed. -/
theorem alike_map {p p' : Parser α} {g : α → β} (hp : Alike ρ A p p')
    (hg : ∀ v v', A v v' → B (g v) (g v')) : Alike ρ B (g <$> p) (g <$> p') :=
  alike_bind hp fun v v' hv => alike_pure (hg v v' hv)

/-- The rule for a parser that gives up: the errors name the tokens in sight, and these are alike.
-/
theorem alike_fail (defect : Defect) : Alike ρ A (fail defect) (fail defect) :=
  fun _ _ hc => .fault (StaticError.alike_ofToken hc.peek defect) .nil hc

/-- The rule for an error that is reported and does not stop the parser. -/
theorem alike_report {e e' : StaticError} (h : e.Alike ρ e') :
    Alike ρ Eq (report e) (report e') :=
  fun _ _ hc => .done rfl (.cons h .nil) hc

/-- The token in sight is read off alike cursors. -/
theorem alike_peek : Alike ρ (Token.Alike ρ) peek peek :=
  fun _ _ hc => .done hc.peek .nil hc

/-- Looking for a kind of token has the same outcome on both sides. -/
theorem alike_check (kind : Kind) : Alike ρ Eq (check kind) (check kind) :=
  fun _ _ hc => .done (hc.check_eq kind) .nil hc

/-- So has looking for the end. -/
theorem alike_atEnd : Alike ρ Eq atEnd atEnd :=
  fun _ _ hc => .done hc.atEnd_eq .nil hc

/-- The rule for going past a token. -/
theorem alike_advance : Alike ρ Eq advance advance :=
  fun _ _ hc => .done rfl .nil hc.advance

/-- The rule for taking a token if there is one: either both sides take alike tokens, or neither
takes one. -/
theorem alike_take? (kinds : List Kind) :
    Alike ρ (Option.Rel (Token.Alike ρ)) (take? kinds) (take? kinds) := by
  intro c c' hc
  -- Both look at the kind of the first token only, and alike tokens are of one kind.
  have hchecks : c.check = c'.check := funext hc.check_eq
  unfold take?
  rw [hchecks]
  split
  · exact .done (.some hc.peek) .nil hc.advance
  · exact .done .none .nil hc

/-- The rule for a token that has to be there. -/
theorem alike_demand (kind : Kind) (defect : Defect) :
    Alike ρ (fun t t' => t.Alike ρ t' ∧ t.kind = kind) (demand kind defect)
      (demand kind defect) := by
  intro c c' hc
  unfold demand
  rw [← hc.check_eq kind]
  split
  case isTrue hcheck =>
    obtain ⟨t, rest, hrest, hkind, -⟩ := Cursor.of_check hcheck
    refine .done ⟨hc.peek, ?_⟩ .nil hc.advance
    unfold Cursor.peek
    rw [hrest]
    exact hkind
  case isFalse => exact .fault (StaticError.alike_ofToken hc.peek defect) .nil hc

/-- The rule for a mark that has to be there. -/
theorem alike_expect (kind : Kind) (place : String) :
    Alike ρ (Token.Alike ρ) (expect kind place) (expect kind place) :=
  fun c c' hc => (alike_demand kind (.expectedToken kind place) c c' hc).imp fun _ _ h => h.1

/-- The rule for a name that has to be there. What is read are not only alike tokens but names on
both sides, so that likeness of names may be asked for. -/
theorem alike_expectName (thing : String) :
    Alike ρ (Token.NameAlike ρ) (expectName thing) (expectName thing) :=
  fun c c' hc => (alike_demand .identifier (.expectedName thing) c c' hc).imp
    fun _ _ h => ⟨h.1, h.2⟩

/-- The limit check counts items, and these are as many on both sides. -/
theorem alike_checkLimit (count : Nat) (defect : Defect) :
    Alike ρ Eq (checkLimit count defect) (checkLimit count defect) := by
  intro c c' hc
  rw [checkLimit_apply, checkLimit_apply]
  split
  · exact .done rfl (.cons (StaticError.alike_ofToken hc.peek defect) .nil) hc
  · exact .done rfl .nil hc

/-- Behind an error, parsing goes on at the same place. -/
theorem alike_recover {p p' : Parser α} (hp : Alike ρ A p p') :
    Alike ρ (Option.Rel A) (recover p) (recover p') := by
  intro c c' hc
  unfold recover
  have hreply := hp c c' hc
  generalize p c = r, p' c' = r' at hreply
  cases hreply with
  | done hv hes hc₁ => exact .done (.some hv) hes hc₁
  | fault he hes hc₁ => exact .done .none (List.rel_append hes (.cons he .nil)) hc₁.resume
  | starved => exact .starved

/-! ### Expressions -/

/-- Operators of one level make alike trees of alike operands. -/
theorem alike_join (level : Level) {a a' b b' : Expr} {op op' : Token} (ha : a.Alike ρ a')
    (hop : op.Alike ρ op') (hb : b.Alike ρ b') :
    (level.join a op b).Alike ρ (level.join a' op' b') := by
  unfold Level.join
  split
  · exact .logical ha hop hb
  · exact .binary ha hop hb

mutual

/-- An expression is read alike on both sides: an assignment where the target is a name, and
otherwise an error at the equality sign. -/
theorem expression_alike : ∀ n, Alike ρ (Expr.Alike ρ) (expression n) (expression n)
  | 0 => alike_starve
  | n + 1 => by
    unfold expression
    refine alike_bind (binary_alike n binaryLevels) fun target target' htarget => ?_
    refine alike_bind (alike_take? _) fun equals equals' hequals => ?_
    cases hequals with
    | none => exact alike_pure htarget
    | some hequals =>
        refine alike_bind (expression_alike n) fun value value' hvalue => ?_
        -- The error names the equality sign, which is alike on both sides, and the target stays.
        have hreported : Alike ρ (Expr.Alike ρ)
            (report (.ofToken _ .invalidAssignmentTarget) >>= fun _ => pure target)
            (report (.ofToken _ .invalidAssignmentTarget) >>= fun _ => pure target') :=
          alike_bind (alike_report (StaticError.alike_ofToken hequals _)) fun _ _ _ =>
            alike_pure htarget
        -- Only names can be assigned to, and trees that are alike are names together.
        cases htarget with
        | get hname => exact alike_pure (.set hname hvalue)
        | _ => exact hreported

/-- A ladder of levels is climbed alike, since the operators of a level are told by their kinds. -/
theorem binary_alike : ∀ n levels, Alike ρ (Expr.Alike ρ) (binary n levels) (binary n levels)
  | 0, _ => alike_starve
  | n + 1, [] => by
    unfold binary
    exact unary_alike n
  | n + 1, level :: tighter => by
    unfold binary
    exact alike_bind (binary_alike n tighter) fun left left' hleft =>
      binaryRest_alike n level tighter hleft

/-- The operators behind alike operands are taken as long as they come, on both sides. -/
theorem binaryRest_alike : ∀ n level tighter {left left'}, left.Alike ρ left' →
    Alike ρ (Expr.Alike ρ) (binaryRest n level tighter left) (binaryRest n level tighter left')
  | 0, _, _, _, _, _ => alike_starve
  | n + 1, level, tighter, left, left', hleft => by
    unfold binaryRest
    refine alike_bind (alike_take? _) fun op op' hop => ?_
    cases hop with
    | none => exact alike_pure hleft
    | some hop =>
        refine alike_bind (binary_alike n tighter) fun right right' hright => ?_
        exact binaryRest_alike n level tighter (alike_join level hleft hop hright)

/-- Operators in front, down to an operand and what it is called with. -/
theorem unary_alike : ∀ n, Alike ρ (Expr.Alike ρ) (unary n) (unary n)
  | 0 => alike_starve
  | n + 1 => by
    unfold unary
    refine alike_bind (alike_take? _) fun op op' hop => ?_
    cases hop with
    | some hop =>
        exact alike_bind (unary_alike n) fun operand operand' hoperand =>
          alike_pure (.unary hop hoperand)
    | none => exact alike_bind (primary_alike n) fun callee callee' => calls_alike n

/-- The argument lists behind alike callees. -/
theorem calls_alike : ∀ n {callee callee'}, callee.Alike ρ callee' →
    Alike ρ (Expr.Alike ρ) (calls n callee) (calls n callee')
  | 0, _, _, _ => alike_starve
  | n + 1, callee, callee', hcallee => by
    unfold calls
    refine alike_bind (alike_take? _) fun opening opening' hopening => ?_
    cases hopening with
    | none => exact alike_pure hcallee
    | some hopening =>
        refine alike_bind (alike_check _) fun closes closes' hcloses => ?_
        subst hcloses
        -- What follows the arguments, whether there are any or not.
        have hlater : ∀ args args', Expr.AllAlike ρ args args' → Alike ρ (Expr.Alike ρ)
            (expect (.mark .rightParen) "after arguments" >>= fun paren =>
              calls n (.call callee paren args))
            (expect (.mark .rightParen) "after arguments" >>= fun paren =>
              calls n (.call callee' paren args')) :=
          fun args args' hargs => alike_bind (alike_expect _ _) fun paren paren' hparen =>
            calls_alike n (.call hcallee hparen hargs)
        cases closes with
        | true => exact alike_bind (alike_pure .nil) hlater
        | false => exact alike_bind (arguments_alike n 0) hlater

/-- Arguments, as many on one side as on the other. The error about too many of them comes at the
same one. -/
theorem arguments_alike : ∀ n count,
    Alike ρ (Expr.AllAlike ρ) (arguments n count) (arguments n count)
  | 0, _ => alike_starve
  | n + 1, count => by
    unfold arguments
    refine alike_bind (alike_checkLimit _ _) fun _ _ _ => ?_
    refine alike_bind (expression_alike n) fun arg arg' harg => ?_
    refine alike_bind (alike_take? _) fun comma comma' hcomma => ?_
    cases hcomma with
    | none => exact alike_pure (.cons harg .nil)
    | some =>
        exact alike_bind (arguments_alike n (count + 1)) fun more more' hmore =>
          alike_pure (.cons harg hmore)

/-- An operand: a constant is the same on both sides, and a name is alike. -/
theorem primary_alike : ∀ n, Alike ρ (Expr.Alike ρ) (primary n) (primary n)
  | 0 => alike_starve
  | n + 1 => by
    unfold primary
    refine alike_bind alike_peek fun token token' htoken => ?_
    have hconstant : ∀ value, Alike ρ (Expr.Alike ρ)
        (advance >>= fun _ => pure (.literal value))
        (advance >>= fun _ => pure (.literal value)) :=
      fun value => alike_bind alike_advance fun _ _ _ => alike_pure .literal
    -- The same branch is taken on both sides, with the same constant.
    rw [← htoken.kind, ← htoken.literal]
    split
    case h_1 | h_2 | h_3 | h_4 | h_5 => exact hconstant _
    case h_6 hkind =>
      exact alike_bind alike_advance fun _ _ _ => alike_pure (.get ⟨htoken, hkind⟩)
    -- Behind the end of the lists the parenthesis in sight cannot be taken, on either side.
    case h_7 =>
      refine alike_bind (alike_take? _) fun opening opening' hopening => ?_
      cases hopening with
      | none => exact alike_fail _
      | some =>
          refine alike_bind (expression_alike n) fun inner inner' hinner => ?_
          exact alike_bind (alike_expect _ _) fun _ _ _ => alike_pure (.group hinner)
    case h_8 => exact alike_fail _

end

/-! ### Declarations and statements -/

/-- Parameters are alike names. -/
theorem parameters_alike : ∀ n count,
    Alike ρ (List.Forall₂ (Token.NameAlike ρ)) (parameters n count) (parameters n count)
  | 0, _ => alike_starve
  | n + 1, count => by
    unfold parameters
    refine alike_bind (alike_checkLimit _ _) fun _ _ _ => ?_
    refine alike_bind (alike_expectName _) fun param param' hparam => ?_
    refine alike_bind (alike_take? _) fun comma comma' hcomma => ?_
    cases hcomma with
    | none => exact alike_pure (.cons hparam .nil)
    | some =>
        exact alike_bind (parameters_alike n (count + 1)) fun more more' hmore =>
          alike_pure (.cons hparam hmore)

/-- An expression that is there. -/
theorem someExpression_alike (n : Nat) : Alike ρ (Option.Rel (Expr.Alike ρ))
    (some <$> expression n) (some <$> expression n) :=
  alike_map (expression_alike n) fun _ _ h => .some h

/-- A variable declaration binds alike names. -/
theorem variableDeclaration_alike (n : Nat) :
    Alike ρ (Stmt.Alike ρ) (variableDeclaration n) (variableDeclaration n) := by
  unfold variableDeclaration
  refine alike_bind (alike_expectName _) fun name name' hname => ?_
  refine alike_bind (alike_take? _) fun equals equals' hequals => ?_
  -- What follows the initial value, whether there is one or not.
  have hlater : ∀ init init', init.Rel (Expr.Alike ρ) init' → Alike ρ (Stmt.Alike ρ)
      (expect (.mark .semicolon) "after variable declaration" >>= fun _ =>
        pure (.declare name init))
      (expect (.mark .semicolon) "after variable declaration" >>= fun _ =>
        pure (.declare name' init')) :=
    fun init init' hinit => alike_bind (alike_expect _ _) fun _ _ _ =>
      alike_pure (.declare hname hinit)
  cases hequals with
  | none => exact alike_bind (alike_pure .none) hlater
  | some => exact alike_bind (someExpression_alike n) hlater

/-- An expression with its semicolon. -/
theorem expressionStatement_alike (n : Nat) :
    Alike ρ (Stmt.Alike ρ) (expressionStatement n) (expressionStatement n) := by
  unfold expressionStatement
  refine alike_bind (expression_alike n) fun value value' hvalue => ?_
  exact alike_bind (alike_expect _ _) fun _ _ _ => alike_pure (.expression hvalue)

/-- A clause that may be missing is missing on both sides or on neither. -/
theorem expressionBefore_alike (n : Nat) (kind : Kind) : Alike ρ (Option.Rel (Expr.Alike ρ))
    (expressionBefore n kind) (expressionBefore n kind) := by
  unfold expressionBefore
  refine alike_bind (alike_check _) fun stops stops' hstops => ?_
  subst hstops
  split
  · exact alike_pure .none
  · exact someExpression_alike n

/-- A `return` keeps its word in the tree, so that alike words are asked for. -/
theorem returnStatement_alike (n : Nat) {word word' : Token} (hword : word.Alike ρ word') :
    Alike ρ (Stmt.Alike ρ) (returnStatement n word) (returnStatement n word') := by
  intro c c' hc
  rw [returnStatement_eq, returnStatement_eq]
  refine alike_bind (expressionBefore_alike n _) (fun result result' hresult => ?_) c c' hc
  exact alike_bind (alike_expect _ _) fun _ _ _ => alike_pure (.giveBack hword hresult)

/-- The first clause of a `for`. -/
theorem forInitializer_alike (n : Nat) :
    Alike ρ (Option.Rel (Stmt.Alike ρ)) (forInitializer n) (forInitializer n) := by
  unfold forInitializer
  refine alike_bind (alike_take? _) fun semicolon semicolon' hsemicolon => ?_
  cases hsemicolon with
  | some => exact alike_pure .none
  | none =>
      refine alike_bind (alike_take? _) fun word word' hword => ?_
      cases hword with
      | some => exact alike_map (variableDeclaration_alike n) fun _ _ h => .some h
      | none => exact alike_map (expressionStatement_alike n) fun _ _ h => .some h

/-- Alike loops stand for alike statements. -/
theorem alike_ofFor {init init' : Option Stmt} {condition condition' : Option Expr}
    {increment increment' : Option Expr} {body body' : Stmt}
    (hinit : init.Rel (Stmt.Alike ρ) init')
    (hcondition : condition.Rel (Expr.Alike ρ) condition')
    (hincrement : increment.Rel (Expr.Alike ρ) increment') (hbody : body.Alike ρ body') :
    (Stmt.ofFor init condition increment body).Alike ρ
      (Stmt.ofFor init' condition' increment' body') := by
  have hcheck : (condition.getD (.literal (.bool true))).Alike ρ
      (condition'.getD (.literal (.bool true))) := by
    cases hcondition with
    | none => exact .literal
    | some h => exact h
  -- A condition that is missing is `true` on both sides.
  have hloop : ∀ {round round' : Stmt}, round.Alike ρ round' → Stmt.Alike ρ
      (.loop (condition.getD (.literal (.bool true))) round)
      (.loop (condition'.getD (.literal (.bool true))) round') := fun h => .loop hcheck h
  unfold Stmt.ofFor
  cases hincrement with
  | none =>
      cases hinit with
      | none => exact hloop hbody
      | some h => exact .block (.cons h (.cons (hloop hbody) .nil))
  | some h =>
      have hround := Stmt.Alike.block (.cons hbody (.cons (.expression h) .nil))
      cases hinit with
      | none => exact hloop hround
      | some h => exact .block (.cons h (.cons (hloop hround) .nil))

mutual

/-- A declaration: a function, a variable, or a statement. An error that is found in it is alike,
and both sides go on behind it at the same place. -/
theorem declaration_alike : ∀ n,
    Alike ρ (Option.Rel (Stmt.Alike ρ)) (declaration n) (declaration n)
  | 0 => alike_starve
  | n + 1 => by
    unfold declaration
    refine alike_recover (alike_bind (alike_take? _) fun word word' hword => ?_)
    cases hword with
    | none => exact statement_alike n
    | some hword =>
        dsimp only
        rw [Cursor.Alike.is_eq hword]
        split
        · exact functionDeclaration_alike n
        · exact variableDeclaration_alike n

/-- Declarations up to the end or to a closing brace, which come at the same place. -/
theorem declarations_alike : ∀ n inBlock,
    Alike ρ (Stmt.AllAlike ρ) (declarations n inBlock) (declarations n inBlock)
  | 0, _ => alike_starve
  | n + 1, inBlock => by
    unfold declarations
    refine alike_bind alike_atEnd fun ends ends' hends => ?_
    refine alike_bind (alike_check _) fun closes closes' hcloses => ?_
    subst hends hcloses
    split
    · exact alike_pure .nil
    · refine alike_bind (declaration_alike n) fun first first' hfirst => ?_
      refine alike_bind (declarations_alike n inBlock) fun more more' hmore => ?_
      -- A declaration is dropped on both sides or on neither.
      cases hfirst with
      | none => exact alike_pure hmore
      | some hfirst => exact alike_pure (.cons hfirst hmore)

/-- A block is alike if its declarations are. -/
theorem block_alike : ∀ n, Alike ρ (Stmt.AllAlike ρ) (block n) (block n)
  | 0 => alike_starve
  | n + 1 => by
    unfold block
    refine alike_bind (declarations_alike n true) fun body body' hbody => ?_
    exact alike_bind (alike_expect _ _) fun _ _ _ => alike_pure hbody

/-- A function: alike names, alike parameters and an alike body. -/
theorem functionDeclaration_alike : ∀ n,
    Alike ρ (Stmt.Alike ρ) (functionDeclaration n) (functionDeclaration n)
  | 0 => alike_starve
  | n + 1 => by
    unfold functionDeclaration
    refine alike_bind (alike_expectName _) fun name name' hname => ?_
    refine alike_bind (alike_expect _ _) fun _ _ _ => ?_
    refine alike_bind (alike_check _) fun closes closes' hcloses => ?_
    subst hcloses
    -- What follows the parameters, whether there are any or not.
    have hlater : ∀ params params', List.Forall₂ (Token.NameAlike ρ) params params' →
        Alike ρ (Stmt.Alike ρ)
          (do
            let _ ← expect (.mark .rightParen) "after parameters"
            let _ ← expect (.mark .leftBrace) "before function body"
            let body ← block n
            pure (.function name params body))
          (do
            let _ ← expect (.mark .rightParen) "after parameters"
            let _ ← expect (.mark .leftBrace) "before function body"
            let body ← block n
            pure (.function name' params' body)) := by
      intro params params' hparams
      refine alike_bind (alike_expect _ _) fun _ _ _ => ?_
      refine alike_bind (alike_expect _ _) fun _ _ _ => ?_
      exact alike_bind (block_alike n) fun body body' hbody =>
        alike_pure (.function hname hparams hbody)
    cases closes with
    | true => exact alike_bind (alike_pure .nil) hlater
    | false => exact alike_bind (parameters_alike n 0) hlater

/-- A statement is told by the word that opens it, and alike words are of one kind. -/
theorem statement_alike : ∀ n, Alike ρ (Stmt.Alike ρ) (statement n) (statement n)
  | 0 => alike_starve
  | n + 1 => by
    unfold statement
    refine alike_bind (alike_take? _) fun word word' hword => ?_
    cases hword with
    | none => exact expressionStatement_alike n
    | some hword =>
        dsimp only
        rw [← hword.kind]
        split
        · exact forStatement_alike n
        · exact ifStatement_alike n
        · exact returnStatement_alike n hword
        · exact whileStatement_alike n
        · exact alike_map (block_alike n) fun _ _ h => .block h

/-- A `for` loop is read clause by clause, and put together into the loop that it stands for. -/
theorem forStatement_alike : ∀ n, Alike ρ (Stmt.Alike ρ) (forStatement n) (forStatement n)
  | 0 => alike_starve
  | n + 1 => by
    unfold forStatement
    refine alike_bind (alike_expect _ _) fun _ _ _ => ?_
    refine alike_bind (forInitializer_alike n) fun init init' hinit => ?_
    refine alike_bind (expressionBefore_alike n _) fun condition condition' hcondition => ?_
    refine alike_bind (alike_expect _ _) fun _ _ _ => ?_
    refine alike_bind (expressionBefore_alike n _) fun increment increment' hincrement => ?_
    refine alike_bind (alike_expect _ _) fun _ _ _ => ?_
    exact alike_bind (statement_alike n) fun body body' hbody =>
      alike_pure (alike_ofFor hinit hcondition hincrement hbody)

/-- An `if`, with an `else` on both sides or on neither. -/
theorem ifStatement_alike : ∀ n, Alike ρ (Stmt.Alike ρ) (ifStatement n) (ifStatement n)
  | 0 => alike_starve
  | n + 1 => by
    unfold ifStatement
    refine alike_bind (alike_expect _ _) fun _ _ _ => ?_
    refine alike_bind (expression_alike n) fun condition condition' hcondition => ?_
    refine alike_bind (alike_expect _ _) fun _ _ _ => ?_
    refine alike_bind (statement_alike n) fun yes yes' hyes => ?_
    refine alike_bind (alike_take? _) fun word word' hword => ?_
    cases hword with
    | none => exact alike_pure (.branchOnly hcondition hyes)
    | some =>
        exact alike_bind (statement_alike n) fun no no' hno =>
          alike_pure (.branch hcondition hyes hno)

/-- A `while` loop. -/
theorem whileStatement_alike : ∀ n,
    Alike ρ (Stmt.Alike ρ) (whileStatement n) (whileStatement n)
  | 0 => alike_starve
  | n + 1 => by
    unfold whileStatement
    refine alike_bind (alike_expect _ _) fun _ _ _ => ?_
    refine alike_bind (expression_alike n) fun condition condition' hcondition => ?_
    refine alike_bind (alike_expect _ _) fun _ _ _ => ?_
    exact alike_bind (statement_alike n) fun body body' hbody =>
      alike_pure (.loop hcondition hbody)

end

end Parser

/-! ### Whole lists -/

/-- Alike lists end in alike tokens. -/
theorem getLast?_alike {ρ : Likeness} {ts ts' : List Token}
    (h : List.Forall₂ (Token.Alike ρ) ts ts') :
    ts.getLast?.Rel (Token.Alike ρ) ts'.getLast? := by
  induction h with
  | nil => exact .none
  | @cons t t' rest rest' ht hrest ih =>
      rw [List.getLast?_cons, List.getLast?_cons]
      generalize rest.getLast? = last, rest'.getLast? = last' at ih
      cases ih with
      | none => exact .some ht
      | some hlast => exact .some hlast

/-- Alike tokens are parsed into alike statements and alike errors. -/
theorem parse_alike {ρ : Likeness} {ts ts' : List Token}
    (h : List.Forall₂ (Token.Alike ρ) ts ts') :
    Stmt.AllAlike ρ (parse ts).program (parse ts').program ∧
      List.Forall₂ (StaticError.Alike ρ) (parse ts).errors (parse ts').errors := by
  -- The supply of steps depends on the number of tokens only.
  have hsteps : parseSteps ts = parseSteps ts' := by
    unfold parseSteps
    rw [h.length_eq]
  have hlast := getLast?_alike h
  unfold parse
  rw [hsteps]
  generalize ts.getLast? = last, ts'.getLast? = last' at hlast
  cases hlast with
  | none => exact ⟨.nil, .nil⟩
  | some hlast =>
      have hcursor : Cursor.Alike ρ ⟨_, ts⟩ ⟨_, ts'⟩ := ⟨hlast, h⟩
      have hreply := Parser.declarations_alike (parseSteps ts') false _ _ hcursor
      dsimp only
      generalize Parser.declarations (parseSteps ts') false ⟨_, ts⟩ = r,
        Parser.declarations (parseSteps ts') false ⟨_, ts'⟩ = r' at hreply
      cases hreply with
      | done hprogram herrors _ => exact ⟨hprogram, herrors⟩
      | fault herror herrors _ => exact ⟨.nil, List.rel_append herrors (.cons herror .nil)⟩
      | starved => exact ⟨.nil, .nil⟩

end Scriptlet
