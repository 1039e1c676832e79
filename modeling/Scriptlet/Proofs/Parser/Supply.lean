import Scriptlet.Proofs.Parser.Reply

/-!
# `Scriptlet.Proofs.Parser.Supply`: the supply of steps does not show

The parsers count down a supply of steps. Two facts make it invisible from outside:

* more steps never change a reply that is not starved (`expression_below`,
  `declarations_below` and the lemmas between them, one for each parser);
* sixteen steps for each token ahead, and a few more, are enough (`expression_moves`,
  `declarations_stays`), since all that a parser calls before it reads a token is the
  ladder of expressions below it.

So all supplies from `parseSteps` on give the same reply (`declarations_eq_of_le`), and
`parse` is never starved. On the way it turns out that a parser only moves forward in its
list of tokens, and that a declaration that starts before the end reads at least one token
(`declaration_moves`).
-/

set_option autoImplicit false

namespace Scriptlet

namespace Parser

/-! ### More steps change nothing -/

mutual

/-- One more step leaves the reply of `expression` alone: both supplies run the same target, look
for the same equality sign, and differ only in the parsers they call, which are one step apart
themselves. -/
theorem expression_below : ∀ n, Below (expression n) (expression (n + 1))
  | 0 => below_starve _
  | n + 1 => by
    unfold expression
    refine below_bind (binary_below n binaryLevels) fun target => ?_
    refine below_bind (Below.refl _) fun equals => ?_
    cases equals with
    | none => exact Below.refl _
    -- Assignments associate to the right, so the value is an expression again.
    | some equals => exact below_bind (expression_below n) fun value => Below.refl _

/-- The same for a ladder of levels. An empty ladder is the parser of operators in front. -/
theorem binary_below : ∀ n levels, Below (binary n levels) (binary (n + 1) levels)
  | 0, _ => below_starve _
  | n + 1, [] => by
    unfold binary
    exact unary_below n
  | n + 1, level :: tighter => by
    unfold binary
    exact below_bind (binary_below n tighter) fun left =>
      binaryRest_below n level tighter left

/-- The same for the operators that follow an operand. The loop gives one step less to each further
operator, with either supply. -/
theorem binaryRest_below : ∀ n level tighter left,
    Below (binaryRest n level tighter left) (binaryRest (n + 1) level tighter left)
  | 0, _, _, _ => below_starve _
  | n + 1, level, tighter, left => by
    unfold binaryRest
    refine below_bind (Below.refl _) fun op => ?_
    cases op with
    | none => exact Below.refl _
    | some op =>
        exact below_bind (binary_below n tighter) fun right =>
          binaryRest_below n level tighter (level.join left op right)

/-- The same for operators in front of an operand, which may follow each other. -/
theorem unary_below : ∀ n, Below (unary n) (unary (n + 1))
  | 0 => below_starve _
  | n + 1 => by
    unfold unary
    refine below_bind (Below.refl _) fun op => ?_
    cases op with
    | some op => exact below_bind (unary_below n) fun operand => Below.refl _
    | none => exact below_bind (primary_below n) fun callee => calls_below n callee

/-- The same for the argument lists behind a callee. -/
theorem calls_below : ∀ n callee, Below (calls n callee) (calls (n + 1) callee)
  | 0, _ => below_starve _
  | n + 1, callee => by
    unfold calls
    refine below_bind (Below.refl _) fun opening => ?_
    cases opening with
    | none => exact Below.refl _
    | some opening =>
        refine below_bind (Below.refl _) fun closes => ?_
        -- What follows the arguments is the same whether there are any or not.
        have hlater : ∀ args, Below
            (expect (.mark .rightParen) "after arguments" >>= fun paren =>
              calls n (.call callee paren args))
            (expect (.mark .rightParen) "after arguments" >>= fun paren =>
              calls (n + 1) (.call callee paren args)) :=
          fun args => below_bind (Below.refl _) fun paren =>
            calls_below n (.call callee paren args)
        cases closes with
        | true => exact below_bind (Below.refl _) hlater
        | false => exact below_bind (arguments_below n 0) hlater

/-- The same for arguments. The limit is checked before the supply comes into play. -/
theorem arguments_below : ∀ n count, Below (arguments n count) (arguments (n + 1) count)
  | 0, _ => below_starve _
  | n + 1, count => by
    unfold arguments
    refine below_bind (Below.refl _) fun _ => below_bind (expression_below n) fun arg => ?_
    refine below_bind (Below.refl _) fun comma => ?_
    cases comma with
    | none => exact Below.refl _
    | some comma => exact below_bind (arguments_below n (count + 1)) fun more => Below.refl _

/-- The same for an operand. Only parentheses call another parser, so only their case depends on the
supply at all. -/
theorem primary_below : ∀ n, Below (primary n) (primary (n + 1))
  | 0 => below_starve _
  | n + 1 => by
    unfold primary
    refine below_bind (Below.refl _) fun token => ?_
    split
    -- The other cases read one token or none, and take no step from the supply.
    case h_7 =>
      refine below_bind (Below.refl _) fun opening => ?_
      cases opening with
      | none => exact Below.refl _
      | some opening => exact below_bind (expression_below n) fun inner => Below.refl _
    all_goals exact Below.refl _

end

/-- The same for parameters, which are names: the supply only bounds how many of them are read. -/
theorem parameters_below : ∀ n count, Below (parameters n count) (parameters (n + 1) count)
  | 0, _ => below_starve _
  | n + 1, count => by
    unfold parameters
    refine below_bind (Below.refl _) fun _ => below_bind (Below.refl _) fun param => ?_
    refine below_bind (Below.refl _) fun comma => ?_
    cases comma with
    | none => exact Below.refl _
    | some comma => exact below_bind (parameters_below n (count + 1)) fun more => Below.refl _

/-- The same for a variable declaration, whose initial value is its only expression. -/
theorem variableDeclaration_below (n : Nat) :
    Below (variableDeclaration n) (variableDeclaration (n + 1)) := by
  unfold variableDeclaration
  refine below_bind (Below.refl _) fun name => below_bind (Below.refl _) fun equals => ?_
  cases equals with
  | none => exact Below.refl _
  | some equals =>
      exact below_bind (below_map (expression_below n)) fun init => Below.refl _

/-- The same for an expression with its semicolon. -/
theorem expressionStatement_below (n : Nat) :
    Below (expressionStatement n) (expressionStatement (n + 1)) := by
  unfold expressionStatement
  exact below_bind (expression_below n) fun value => Below.refl _

/-- The same for a `return`, with a result or without one. -/
theorem returnStatement_below (n : Nat) (word : Token) :
    Below (returnStatement n word) (returnStatement (n + 1) word) := by
  unfold returnStatement
  refine below_bind (Below.refl _) fun ends => ?_
  cases ends with
  | true => exact Below.refl _
  | false => exact below_bind (below_map (expression_below n)) fun result => Below.refl _

/-- The same for the first clause of a `for`: a semicolon, a declaration or an expression. -/
theorem forInitializer_below (n : Nat) :
    Below (forInitializer n) (forInitializer (n + 1)) := by
  unfold forInitializer
  refine below_bind (Below.refl _) fun semicolon => ?_
  cases semicolon with
  | some semicolon => exact Below.refl _
  | none =>
      refine below_bind (Below.refl _) fun word => ?_
      cases word with
      | some word => exact below_map (variableDeclaration_below n)
      | none => exact below_map (expressionStatement_below n)

/-- The same for a clause that may be missing. Whether it is missing shows in the next token, which
no supply has a part in. -/
theorem expressionBefore_below (n : Nat) (kind : Kind) :
    Below (expressionBefore n kind) (expressionBefore (n + 1) kind) := by
  unfold expressionBefore
  refine below_bind (Below.refl _) fun stops => ?_
  cases stops with
  | true => exact Below.refl _
  | false => exact below_map (expression_below n)

mutual

/-- The same for a declaration. An error that is found in it is reported, and skipping its tokens
takes no steps, so recovery adds nothing. -/
theorem declaration_below : ∀ n, Below (declaration n) (declaration (n + 1))
  | 0 => below_starve _
  | n + 1 => by
    unfold declaration
    refine below_recover (below_bind (Below.refl _) fun word => ?_)
    cases word with
    | none => exact statement_below n
    | some word =>
        dsimp only
        split
        · exact functionDeclaration_below n
        · exact variableDeclaration_below n

/-- The same for declarations up to the end or to a closing brace. Whether there are any more is
decided before a step is spent. -/
theorem declarations_below : ∀ n inBlock,
    Below (declarations n inBlock) (declarations (n + 1) inBlock)
  | 0, _ => below_starve _
  | n + 1, inBlock => by
    unfold declarations
    refine below_bind (Below.refl _) fun ends => below_bind (Below.refl _) fun closes => ?_
    split
    · exact Below.refl _
    · exact below_bind (declaration_below n) fun first =>
        below_bind (declarations_below n inBlock) fun more => Below.refl _

/-- The same for a block with its closing brace. -/
theorem block_below : ∀ n, Below (block n) (block (n + 1))
  | 0 => below_starve _
  | n + 1 => by
    unfold block
    exact below_bind (declarations_below n true) fun body => Below.refl _

/-- The same for a function: its head is read token by token, and its body is a block. -/
theorem functionDeclaration_below : ∀ n,
    Below (functionDeclaration n) (functionDeclaration (n + 1))
  | 0 => below_starve _
  | n + 1 => by
    unfold functionDeclaration
    refine below_bind (Below.refl _) fun name => below_bind (Below.refl _) fun opening =>
      below_bind (Below.refl _) fun closes => ?_
    -- Without parameters the closing parenthesis follows at once. The rest of the head is the same.
    cases closes with
    | true =>
        exact below_bind (Below.refl _) fun params => below_bind (Below.refl _) fun _ =>
          below_bind (Below.refl _) fun _ => below_bind (block_below n) fun body =>
            Below.refl _
    | false =>
        exact below_bind (parameters_below n 0) fun params =>
          below_bind (Below.refl _) fun _ => below_bind (Below.refl _) fun _ =>
            below_bind (block_below n) fun body => Below.refl _

/-- The same for a statement. The word that opens it says which parser goes on, with one step
less. -/
theorem statement_below : ∀ n, Below (statement n) (statement (n + 1))
  | 0 => below_starve _
  | n + 1 => by
    unfold statement
    refine below_bind (Below.refl _) fun word => ?_
    cases word with
    | none => exact expressionStatement_below n
    | some word =>
        dsimp only
        split
        · exact forStatement_below n
        · exact ifStatement_below n
        · exact returnStatement_below n word
        · exact whileStatement_below n
        · exact below_map (block_below n)

/-- The same for a `for` loop, clause by clause. -/
theorem forStatement_below : ∀ n, Below (forStatement n) (forStatement (n + 1))
  | 0 => below_starve _
  | n + 1 => by
    unfold forStatement
    exact below_bind (Below.refl _) fun _ => below_bind (forInitializer_below n) fun init =>
      below_bind (expressionBefore_below n _) fun condition =>
        below_bind (Below.refl _) fun _ =>
          below_bind (expressionBefore_below n _) fun increment =>
            below_bind (Below.refl _) fun _ =>
              below_bind (statement_below n) fun body => Below.refl _

/-- The same for an `if`. Whether there is an `else` is seen in the next token. -/
theorem ifStatement_below : ∀ n, Below (ifStatement n) (ifStatement (n + 1))
  | 0 => below_starve _
  | n + 1 => by
    unfold ifStatement
    refine below_bind (Below.refl _) fun _ => below_bind (expression_below n) fun condition =>
      below_bind (Below.refl _) fun _ => below_bind (statement_below n) fun yes =>
        below_bind (Below.refl _) fun word => ?_
    cases word with
    | none => exact Below.refl _
    | some word => exact below_bind (statement_below n) fun no => Below.refl _

/-- The same for a `while` loop. -/
theorem whileStatement_below : ∀ n, Below (whileStatement n) (whileStatement (n + 1))
  | 0 => below_starve _
  | n + 1 => by
    unfold whileStatement
    exact below_bind (Below.refl _) fun _ => below_bind (expression_below n) fun condition =>
      below_bind (Below.refl _) fun _ => below_bind (statement_below n) fun body =>
        Below.refl _

end

end Parser

/-! ### Parsers only move forward -/

/-- The cursor `c` is a later place than `c₀`, and a token lies between them if there was
any to read. -/
structure Cursor.Past (c c₀ : Cursor) : Prop extends c.Behind c₀ where
  moved : c₀.rest = [] ∨ c.rest.length < c₀.rest.length

/-- One step past a token is a later place with a token in between. -/
theorem Cursor.past_cons {c c₀ : Cursor} {t : Token} (hrest : c₀.rest = t :: c.rest)
    (hlast : c.last = c₀.last) : c.Past c₀ :=
  ⟨behind_cons hrest hlast, .inr (by simp [hrest])⟩

/-- Going past a token that is not the end. Behind the list there is nothing to go past. -/
theorem Cursor.advance_past {c : Cursor} (h : c.peek.kind ≠ .eof) : c.advance.Past c := by
  obtain ⟨last, rest⟩ := c
  cases rest with
  | nil => exact ⟨Behind.refl _, .inl rfl⟩
  | cons t rest =>
      rw [advance_cons (show t.kind ≠ .eof from h)]
      exact past_cons rfl rfl

/-- Going on from a later place, without going back, is still going past a token. -/
theorem Cursor.Behind.past {c₂ c₁ c₀ : Cursor} (h : c₂.Behind c₁) (h' : c₁.Past c₀) :
    c₂.Past c₀ := by
  refine ⟨h.trans h'.toBehind, ?_⟩
  cases h'.moved with
  | inl hnil => exact .inl hnil
  | inr hlt => exact .inr (Nat.lt_of_le_of_lt h.length_le hlt)

/-- A reply that is not starved and whose cursor is not in front of `c₀`. -/
def Reply.Stays {α : Type} (c₀ : Cursor) (r : Reply α) : Prop :=
  r.Meets (fun _ c => c.Behind c₀) (fun c => c.Behind c₀)

/-- A reply that is not starved and whose cursor is behind a token, if it has a value and
there was a token to read. -/
def Reply.Moves {α : Type} (c₀ : Cursor) (r : Reply α) : Prop :=
  r.Meets (fun _ c => c.Past c₀) (fun c => c.Behind c₀)

namespace Reply

variable {α : Type} {c₁ c₀ : Cursor} {r : Reply α}

/-- A parser that moves does not go back. -/
theorem Moves.stays (h : r.Moves c₀) : r.Stays c₀ :=
  h.imp (fun _ _ hc => hc.toBehind) fun _ hc => hc

/-- A place that is not in front of `c₁` is not in front of what lies before `c₁`. -/
theorem Stays.of_behind (h : r.Stays c₁) (hc : c₁.Behind c₀) : r.Stays c₀ :=
  h.imp (fun _ _ h => h.trans hc) fun _ h => h.trans hc

/-- Where a token was passed already, it is enough not to go back. -/
theorem Stays.of_past (h : r.Stays c₁) (hc : c₁.Past c₀) : r.Moves c₀ :=
  h.imp (fun _ _ h => h.past hc) fun _ h => h.trans hc.toBehind

end Reply

namespace Parser

variable {α β : Type}

/-- Behind a parser that moves, it is enough not to go back. -/
theorem moves_bind {p : Parser α} {f : α → Parser β} {c : Cursor} (hp : (p c).Moves c)
    (hf : ∀ v c', c'.Past c → (f v c').Stays c') : ((p >>= f) c).Moves c :=
  meets_bind hp (fun _ h => h) fun v c' hc => (hf v c' hc).of_past hc

/-- Two parsers that do not go back do not go back one after the other. -/
theorem stays_bind {p : Parser α} {f : α → Parser β} {c : Cursor} (hp : (p c).Stays c)
    (hf : ∀ v c', c'.Behind c → (f v c').Stays c') : ((p >>= f) c).Stays c :=
  meets_bind hp (fun _ h => h) fun v c' hc => (hf v c' hc).of_behind hc

/-- Giving a value reads nothing. -/
theorem stays_pure {value : α} {c : Cursor} : ((pure value : Parser α) c).Stays c :=
  Cursor.Behind.refl c

/-- Behind a token that may be taken, the rest must not go back from where it starts. If the token
is taken, there is one token less ahead, which pays for the steps of the rest. -/
theorem stays_take? {kinds : List Kind} {f : Option Token → Parser β} {c : Cursor}
    (hsome : ∀ t c', c.rest.length = c'.rest.length + 1 → (f (some t) c').Stays c')
    (hnone : (f none c).Stays c) : ((take? kinds >>= f) c).Stays c :=
  meets_take? (fun t c' _ hrest hlast =>
    (hsome t c' (by simp [hrest])).of_behind (Cursor.behind_cons hrest hlast)) hnone

/-- Behind a token that has to be there, there is one token less ahead. If the token is missing, the
parser stops where it stands. -/
theorem stays_demand {kind : Kind} {defect : Defect} {f : Token → Parser β} {c : Cursor}
    (h : kind ≠ .eof)
    (hdone : ∀ t c', c.rest.length = c'.rest.length + 1 → (f t c').Stays c') :
    ((demand kind defect >>= f) c).Stays c :=
  meets_demand h (fun t c' hrest hlast =>
    (hdone t c' (by simp [hrest])).of_behind (Cursor.behind_cons hrest hlast))
    (Cursor.Behind.refl c)

/-- Looking at the next token reads nothing. -/
theorem stays_check {kind : Kind} {f : Bool → Parser β} {c : Cursor}
    (h : (f (c.check kind) c).Stays c) : ((check kind >>= f) c).Stays c := by
  rw [bind_of_clean (check_apply kind c)]
  exact h

/-- The limit check reads nothing. -/
theorem moves_checkLimit {count : Nat} {defect : Defect} {f : Unit → Parser β} {c : Cursor}
    (h : (f () c).Moves c) : ((checkLimit count defect >>= f) c).Moves c := by
  show (Parser.bind (checkLimit count defect) f c).Moves c
  unfold Parser.bind
  rw [checkLimit_apply]
  exact Reply.meets_after.2 h

/-! ### Enough steps for expressions -/

mutual

/-- With ten steps above sixteen for each token, an expression is read, and at least one token of
it. The levels of binary operators take seven of them before a token is read. -/
theorem expression_moves : ∀ n c, 16 * c.rest.length + 10 ≤ n → (expression n c).Moves c
  | 0, _, h => by omega
  | n + 1, c, h => by
    unfold expression
    refine moves_bind (binary_moves n binaryLevels c (by decide) ?_) fun target c₁ hc₁ => ?_
    -- Six levels, and the three steps of an operator in front, are ahead before the first token.
    · show 16 * c.rest.length + 6 + 3 ≤ n
      omega
    have hle := hc₁.length_le
    -- The equality sign pays for all the steps that the value takes.
    refine stays_take? (fun equals c₂ hlen => ?_) stays_pure
    refine stays_bind (expression_moves n c₂ (by omega)).stays fun value c₃ _ => ?_
    split
    · exact stays_pure
    · exact stays_bind (Cursor.Behind.refl _) fun _ _ _ => stays_pure

/-- For the same tokens, a ladder needs one step for each of its levels, and three below them. -/
theorem binary_moves : ∀ n levels c, levels.length ≤ 6 →
    16 * c.rest.length + levels.length + 3 ≤ n → (binary n levels c).Moves c
  | 0, _, _, _, h => by omega
  | n + 1, [], c, _, h => by
    rw [List.length_nil] at h
    unfold binary
    exact unary_moves n c (by omega)
  | n + 1, level :: tighter, c, hsize, h => by
    -- A level takes one step before anything is read. The length of the list accounts for it.
    rw [List.length_cons] at hsize h
    unfold binary
    refine moves_bind (binary_moves n tighter c (by omega) (by omega)) fun left c₁ hc₁ => ?_
    have hle := hc₁.length_le
    exact binaryRest_stays n level tighter left c₁ (by omega) (by omega)

/-- The operators behind an operand need a single step of their own: each operator is a token, and
sixteen steps are gained with it, more than the ladder below takes. -/
theorem binaryRest_stays : ∀ n level tighter left c, tighter.length ≤ 6 →
    16 * c.rest.length + 1 ≤ n → (binaryRest n level tighter left c).Stays c
  | 0, _, _, _, _, _, h => by omega
  | n + 1, level, tighter, left, c, hsize, h => by
    unfold binaryRest
    refine stays_take? (fun op c₁ hlen => ?_) stays_pure
    refine stays_bind (binary_moves n tighter c₁ hsize (by omega)).stays fun right c₂ hc₂ => ?_
    -- An operator was read, and what follows starts with all of its sixteen steps.
    have hle := hc₂.length_le
    exact binaryRest_stays n level tighter _ c₂ hsize (by omega)

/-- An operator in front, or an operand with its argument lists. Two steps are spent before a token
is read. -/
theorem unary_moves : ∀ n c, 16 * c.rest.length + 2 ≤ n → (unary n c).Moves c
  | 0, _, h => by omega
  | n + 1, c, h => by
    unfold unary
    refine meets_take? (fun op c₁ _ hrest hlast => ?_) ?_
    · have hlen : c.rest.length = c₁.rest.length + 1 := by simp [hrest]
      exact (stays_bind (unary_moves n c₁ (by omega)).stays
        fun _ _ _ => stays_pure).of_past (Cursor.past_cons hrest hlast)
    · refine moves_bind (primary_moves n c (by omega)) fun callee c₁ hc₁ => ?_
      have hle := hc₁.length_le
      exact calls_stays n callee c₁ (by omega)

/-- The argument lists behind a callee: each starts with a parenthesis, which pays for what is in
it. -/
theorem calls_stays : ∀ n callee c, 16 * c.rest.length + 1 ≤ n → (calls n callee c).Stays c
  | 0, _, _, h => by omega
  | n + 1, callee, c, h => by
    unfold calls
    refine stays_take? (fun opening c₁ hlen => ?_) stays_pure
    -- Whether there are arguments or not, the closing parenthesis is what comes next.
    have hlater : ∀ args c₂, c₂.Behind c₁ →
        ((expect (.mark .rightParen) "after arguments" >>= fun paren =>
          calls n (.call callee paren args)) c₂).Stays c₂ := by
      intro args c₂ hc₂
      have hle := hc₂.length_le
      exact stays_demand (by decide) fun paren c₃ hlen' =>
        calls_stays n _ c₃ (by omega)
    refine stays_check ?_
    cases c₁.check (.mark .rightParen) with
    | true => exact stays_bind stays_pure hlater
    | false => exact stays_bind (arguments_moves n 0 c₁ (by omega)).stays hlater

/-- Arguments, the first of which is an expression. One step more than for an expression is
enough. -/
theorem arguments_moves : ∀ n count c, 16 * c.rest.length + 11 ≤ n →
    (arguments n count c).Moves c
  | 0, _, _, h => by omega
  | n + 1, count, c, h => by
    unfold arguments
    refine moves_checkLimit (moves_bind (expression_moves n c (by omega)) fun arg c₁ hc₁ => ?_)
    have hle := hc₁.length_le
    -- The comma pays for the steps of the next argument.
    refine stays_take? (fun comma c₂ hlen => ?_) stays_pure
    exact stays_bind (arguments_moves n (count + 1) c₂ (by omega)).stays
      fun _ _ _ => stays_pure

/-- An operand is one token, or an expression behind a parenthesis, which pays for it. -/
theorem primary_moves : ∀ n c, 16 * c.rest.length + 1 ≤ n → (primary n c).Moves c
  | 0, _, h => by omega
  | n + 1, c, h => by
    obtain ⟨value, hvalue, heq⟩ | ⟨hkind, heq⟩ | ⟨-, heq⟩ | ⟨-, -, -, heq⟩ := primary_cases n c
    · rw [heq]
      exact Cursor.advance_past fun heof => by simp [Token.constant?, heof] at hvalue
    -- A name is no end token.
    · rw [heq]
      exact Cursor.advance_past (by simp [hkind])
    · rw [heq]
      refine meets_take? (fun opening c₁ _ hrest hlast => ?_) (Cursor.Behind.refl c)
      have hlen : c.rest.length = c₁.rest.length + 1 := by simp [hrest]
      refine Reply.Stays.of_past ?_ (Cursor.past_cons hrest hlast)
      exact stays_bind (expression_moves n c₁ (by omega)).stays fun inner c₂ _ =>
        stays_demand (by decide) fun _ _ _ => stays_pure
    -- No operand: the parser stops with an error, where it stands.
    · rw [heq]
      exact Cursor.Behind.refl c

end

/-! ### Enough steps for statements -/

/-- A token that has to be there is passed, if it is there. What follows only must not go back. -/
theorem moves_demand {β : Type} {kind : Kind} {defect : Defect} {f : Token → Parser β}
    {c : Cursor} (h : kind ≠ .eof)
    (hdone : ∀ t c', c.rest.length = c'.rest.length + 1 → (f t c').Stays c') :
    ((demand kind defect >>= f) c).Moves c :=
  meets_demand h (fun t c' hrest hlast =>
    (hdone t c' (by simp [hrest])).of_past (Cursor.past_cons hrest hlast))
    (Cursor.Behind.refl c)

/-- Changing the value of a reply does not change its place. -/
theorem stays_map {g : α → β} {p : Parser α} {c : Cursor} (h : (p c).Stays c) :
    ((g <$> p) c).Stays c :=
  stays_bind h fun _ _ _ => stays_pure

/-- The semicolon at the end of a statement. -/
theorem stays_closing {kind : Kind} {place : String} {value : α} {c : Cursor}
    (h : kind ≠ .eof) : ((expect kind place >>= fun _ => pure value) c).Stays c :=
  stays_demand h fun _ _ _ => stays_pure

/-- Parameters are names with commas between them. One step above those for the tokens is enough. -/
theorem parameters_moves : ∀ n count c, 16 * c.rest.length + 1 ≤ n →
    (parameters n count c).Moves c
  | 0, _, _, h => by omega
  | n + 1, count, c, h => by
    unfold parameters
    refine moves_checkLimit (moves_demand (by decide) fun param c₁ hlen => ?_)
    refine stays_take? (fun comma c₂ hlen' => ?_) stays_pure
    exact stays_bind (parameters_moves n (count + 1) c₂ (by omega)).stays
      fun _ _ _ => stays_pure

/-- A variable declaration behind its word, with an initial value or without one. -/
theorem variableDeclaration_stays (n : Nat) (c : Cursor) (h : 16 * c.rest.length + 10 ≤ n) :
    (variableDeclaration n c).Stays c := by
  unfold variableDeclaration
  refine stays_demand (by decide) fun name c₁ hlen => ?_
  refine stays_take? (fun equals c₂ hlen' => ?_) ?_
  · exact stays_bind (stays_map (expression_moves n c₂ (by omega)).stays) fun init c₃ _ =>
      stays_closing (by decide)
  · exact stays_bind stays_pure fun init c₃ _ => stays_closing (by decide)

/-- An expression with its semicolon, at least one token. -/
theorem expressionStatement_moves (n : Nat) (c : Cursor) (h : 16 * c.rest.length + 10 ≤ n) :
    (expressionStatement n c).Moves c := by
  unfold expressionStatement
  exact moves_bind (expression_moves n c h) fun value c₁ _ => stays_closing (by decide)

/-- A `return` behind its word. Its result may be missing, and then nothing but the semicolon is
read. -/
theorem returnStatement_stays (n : Nat) (word : Token) (c : Cursor)
    (h : 16 * c.rest.length + 10 ≤ n) : (returnStatement n word c).Stays c := by
  unfold returnStatement
  refine stays_check ?_
  cases c.check (.mark .semicolon) with
  | true => exact stays_bind stays_pure fun result c₁ _ => stays_closing (by decide)
  | false =>
      exact stays_bind (stays_map (expression_moves n c h).stays) fun result c₁ _ =>
        stays_closing (by decide)

/-- The first clause of a `for`, which may be empty. -/
theorem forInitializer_stays (n : Nat) (c : Cursor) (h : 16 * c.rest.length + 10 ≤ n) :
    (forInitializer n c).Stays c := by
  unfold forInitializer
  refine stays_take? (fun _ _ _ => stays_pure) ?_
  refine stays_take? (fun word c₁ hlen => ?_) ?_
  · exact stays_map (variableDeclaration_stays n c₁ (by omega))
  · exact stays_map (expressionStatement_moves n c h).stays

/-- A clause that may be missing: then nothing is read. -/
theorem expressionBefore_stays (n : Nat) (kind : Kind) (c : Cursor)
    (h : 16 * c.rest.length + 10 ≤ n) : (expressionBefore n kind c).Stays c := by
  unfold expressionBefore
  refine stays_check ?_
  cases c.check kind with
  | true => exact stays_pure
  | false => exact stays_map (expression_moves n c h).stays

end Parser

namespace Cursor

/-- Skipping ends at a later place in the same tokens. -/
theorem skipStatement_suffix (previous : Token) (ts : List Token) :
    skipStatement previous ts <:+ ts := by
  induction ts generalizing previous with
  | nil => exact List.suffix_refl _
  | cons t ts ih =>
      unfold skipStatement
      split
      -- It stops here, or goes on behind the token, which then is the previous one.
      · exact List.suffix_refl _
      · exact (ih t).trans (List.suffix_cons t ts)

/-- Parsing goes on behind the place where the declaration in error began. -/
theorem resume_past {c' c : Cursor} (h : c'.Behind c) (hend : c.atEnd = false) :
    c'.resume.Behind c ∧ c'.resume.rest.length < c.rest.length := by
  obtain ⟨last, rest⟩ := c'
  cases rest with
  | nil =>
      refine ⟨h, ?_⟩
      cases hrest : c.rest with
      | nil => simp [atEnd, hrest] at hend
      | cons t rest => simp [resume]
  | cons t rest =>
      simp only [resume]
      split
      case isTrue heof =>
        -- An end where the declaration did not begin: something was read before it.
        refine ⟨h, Nat.lt_of_le_of_ne h.length_le fun hlen => ?_⟩
        have heq := h.rest.eq_of_length hlen
        simp only [atEnd, ← heq, heof, reduceCtorEq] at hend
      case isFalse =>
        -- One token is passed in any case, even if the error was found at the first one.
        have hskip := skipStatement_suffix t rest
        have hcons := (hskip.trans (List.suffix_cons t rest)).trans h.rest
        refine ⟨⟨h.last, hcons⟩, ?_⟩
        have hle := h.length_le
        have hle' := hskip.length_le
        simp only [List.length_cons] at hle
        show (skipStatement t rest).length < c.rest.length
        omega

end Cursor

namespace Parser

/-- The rule for a parser whose error is reported: it stops for no error. -/
theorem recover_meets {α : Type} {p : Parser α} {c : Cursor} (hp : (p c).Moves c)
    (hend : c.atEnd = false) :
    (recover p c).Meets (fun _ c' => c'.Behind c ∧ c'.rest.length < c.rest.length)
      (fun _ => False) := by
  unfold recover
  cases h : p c with
  | done value errors c' =>
      rw [h] at hp
      -- Without an error, a token was read, since there was one to read.
      refine ⟨hp.toBehind, hp.moved.resolve_left fun hnil => ?_⟩
      simp [Cursor.atEnd, hnil] at hend
  | fault error errors c' =>
      rw [h] at hp
      exact Cursor.resume_past hp hend
  | starved =>
      rw [h] at hp
      exact hp

mutual

/-- A declaration that starts before the end reads at least one token, whether an error is
found in it or not. -/
theorem declaration_moves : ∀ n c, 16 * c.rest.length + 12 ≤ n → c.atEnd = false →
    (declaration n c).Meets (fun _ c' => c'.Behind c ∧ c'.rest.length < c.rest.length)
      (fun _ => False)
  | 0, _, h, _ => by omega
  | n + 1, c, h, hend => by
    unfold declaration
    refine recover_meets (meets_take? (fun word c₁ _ hrest hlast => ?_) ?_) hend
    · have hlen : c.rest.length = c₁.rest.length + 1 := by simp [hrest]
      refine Reply.Stays.of_past ?_ (Cursor.past_cons hrest hlast)
      dsimp only
      split
      · exact functionDeclaration_stays n c₁ (by omega)
      · exact variableDeclaration_stays n c₁ (by omega)
    · exact statement_moves n c (by omega)

/-- Declarations read on to the end or to a closing brace, past all errors. -/
theorem declarations_stays : ∀ n inBlock c, 16 * c.rest.length + 13 ≤ n →
    (declarations n inBlock c).Meets (fun _ c' => c'.Behind c) (fun _ => False)
  | 0, _, _, h => by omega
  | n + 1, inBlock, c, h => by
    unfold declarations
    rw [bind_of_clean (atEnd_apply c), bind_of_clean (check_apply _ c)]
    split
    · exact Cursor.Behind.refl c
    · rename_i hgo
      have hend : c.atEnd = false := by
        cases hc : c.atEnd with
        | false => rfl
        | true => simp [hc] at hgo
      -- Every round reads a token, with an error or without one: the loop comes to an end.
      refine meets_bind (declaration_moves n c (by omega) hend) (fun _ h => h) ?_
      rintro first c₁ ⟨hc₁, hlt⟩
      refine meets_bind (declarations_stays n inBlock c₁ (by omega)) (fun _ h => h) ?_
      intro more c₂ hc₂
      exact hc₂.trans hc₁

/-- A block: its declarations come to an end by themselves, so that only the brace can be missing.
-/
theorem block_stays : ∀ n c, 16 * c.rest.length + 14 ≤ n → (block n c).Stays c
  | 0, _, h => by omega
  | n + 1, c, h => by
    unfold block
    refine stays_bind ?_ fun body c₁ _ => stays_closing (by decide)
    exact (declarations_stays n true c (by omega)).imp (fun _ _ h => h) fun _ h => h.elim

/-- A function behind its word: a name, parameters and a block, with eleven steps above those for
the tokens. -/
theorem functionDeclaration_stays : ∀ n c, 16 * c.rest.length + 11 ≤ n →
    (functionDeclaration n c).Stays c
  | 0, _, h => by omega
  | n + 1, c, h => by
    unfold functionDeclaration
    refine stays_demand (by decide) fun name c₁ h₁ => stays_demand (by decide) fun _ c₂ h₂ => ?_
    -- The rest of the head and the body, behind the parameters, whether there are any or not.
    have hlater : ∀ params c₃, c₃.Behind c₂ →
        ((expect (.mark .rightParen) "after parameters" >>= fun _ =>
          expect (.mark .leftBrace) "before function body" >>= fun _ =>
            block n >>= fun body => pure (Stmt.function name params body)) c₃).Stays c₃ := by
      intro params c₃ hc₃
      have hle := hc₃.length_le
      refine stays_demand (by decide) fun _ c₄ h₄ => stays_demand (by decide) fun _ c₅ h₅ => ?_
      exact stays_bind (block_stays n c₅ (by omega)) fun body c₆ _ => stays_pure
    refine stays_check ?_
    cases c₂.check (.mark .rightParen) with
    | true => exact stays_bind stays_pure hlater
    | false => exact stays_bind (parameters_moves n 0 c₂ (by omega)).stays hlater

/-- A statement is an expression, or what its first word says; this word is passed, so that the rest
only must not go back. -/
theorem statement_moves : ∀ n c, 16 * c.rest.length + 11 ≤ n → (statement n c).Moves c
  | 0, _, h => by omega
  | n + 1, c, h => by
    rw [statement_succ]
    refine meets_take? (fun word c₁ hword hrest hlast => ?_)
      (expressionStatement_moves n c (by omega))
    have hlen : c.rest.length = c₁.rest.length + 1 := by simp [hrest]
    refine Reply.Stays.of_past (show (opened n word c₁).Stays c₁ from ?_)
      (Cursor.past_cons hrest hlast)
    obtain ⟨-, heq⟩ | ⟨-, heq⟩ | ⟨-, heq⟩ | ⟨-, heq⟩ | ⟨-, heq⟩ := opened_cases n hword <;>
      rw [heq]
    · exact forStatement_stays n c₁ (by omega)
    · exact ifStatement_stays n c₁ (by omega)
    · exact returnStatement_stays n word c₁ (by omega)
    · exact whileStatement_stays n c₁ (by omega)
    · exact stays_map (block_stays n c₁ (by omega))

/-- A `for` loop behind its word. Each clause starts no further ahead than the one before. -/
theorem forStatement_stays : ∀ n c, 16 * c.rest.length + 11 ≤ n → (forStatement n c).Stays c
  | 0, _, h => by omega
  | n + 1, c, h => by
    unfold forStatement
    refine stays_demand (by decide) fun _ c₁ h₁ => ?_
    refine stays_bind (forInitializer_stays n c₁ (by omega)) fun init c₂ hc₂ => ?_
    -- How far a clause went is not known, only that it did not go back.
    have h₂ := hc₂.length_le
    refine stays_bind (expressionBefore_stays n _ c₂ (by omega)) fun condition c₃ hc₃ => ?_
    have h₃ := hc₃.length_le
    refine stays_demand (by decide) fun _ c₄ h₄ => ?_
    refine stays_bind (expressionBefore_stays n _ c₄ (by omega)) fun increment c₅ hc₅ => ?_
    have h₅ := hc₅.length_le
    refine stays_demand (by decide) fun _ c₆ h₆ => ?_
    exact stays_bind (statement_moves n c₆ (by omega)).stays fun body c₇ _ => stays_pure

/-- An `if` behind its word, with an `else` or without one. -/
theorem ifStatement_stays : ∀ n c, 16 * c.rest.length + 11 ≤ n → (ifStatement n c).Stays c
  | 0, _, h => by omega
  | n + 1, c, h => by
    unfold ifStatement
    refine stays_demand (by decide) fun _ c₁ h₁ => ?_
    refine stays_bind (expression_moves n c₁ (by omega)).stays fun condition c₂ hc₂ => ?_
    have h₂ := hc₂.length_le
    refine stays_demand (by decide) fun _ c₃ h₃ => ?_
    refine stays_bind (statement_moves n c₃ (by omega)).stays fun yes c₄ hc₄ => ?_
    have h₄ := hc₄.length_le
    refine stays_take? (fun word c₅ h₅ => ?_) stays_pure
    exact stays_bind (statement_moves n c₅ (by omega)).stays fun no c₆ _ => stays_pure

/-- A `while` loop behind its word. -/
theorem whileStatement_stays : ∀ n c, 16 * c.rest.length + 11 ≤ n →
    (whileStatement n c).Stays c
  | 0, _, h => by omega
  | n + 1, c, h => by
    unfold whileStatement
    refine stays_demand (by decide) fun _ c₁ h₁ => ?_
    refine stays_bind (expression_moves n c₁ (by omega)).stays fun condition c₂ hc₂ => ?_
    have h₂ := hc₂.length_le
    refine stays_demand (by decide) fun _ c₃ h₃ => ?_
    exact stays_bind (statement_moves n c₃ (by omega)).stays fun body c₄ _ => stays_pure

end

/-! ### All supplies that are large enough agree -/

/-- What one step does not change, no number of steps changes. -/
theorem below_of_le {α : Type} {p : Nat → Parser α} (hp : ∀ n, Below (p n) (p (n + 1)))
    {n m : Nat} (h : n ≤ m) : Below (p n) (p m) := by
  induction h with
  | refl => exact Below.refl _
  | step _ ih => exact ih.trans (hp _)

/-- Two supplies that are large enough for the tokens ahead give the same reply. -/
theorem declarations_eq_of_le {n m : Nat} {inBlock : Bool} {c : Cursor}
    (hn : 16 * c.rest.length + 13 ≤ n) (h : n ≤ m) :
    declarations m inBlock c = declarations n inBlock c := by
  have hbelow := below_of_le (fun n => declarations_below n inBlock) h c
  -- The smaller supply is not starved either, so the larger one has nothing to add.
  refine hbelow.eq_of_ne fun hstarved => ?_
  have hmeets := declarations_stays n inBlock c hn
  rw [hstarved] at hmeets
  exact hmeets

end Parser

/-- What `parse` gives is what the parser of declarations gives, whatever supply of steps
is large enough. -/
theorem parse_eq_of_steps {tokens : List Token} {last : Token}
    (hlast : tokens.getLast? = some last) {n : Nat} (hn : parseSteps tokens ≤ n) :
    ∃ c, Parser.declarations n false ⟨last, tokens⟩
      = .done (parse tokens).program (parse tokens).errors c := by
  have hsteps : 16 * tokens.length + 13 ≤ parseSteps tokens := by
    unfold parseSteps
    omega
  rw [Parser.declarations_eq_of_le (c := ⟨last, tokens⟩) hsteps hn]
  -- With these steps no reply is starved, and declarations recover from all faults.
  have hmeets := Parser.declarations_stays (parseSteps tokens) false ⟨last, tokens⟩ hsteps
  unfold parse
  rw [hlast]
  cases h : Parser.declarations (parseSteps tokens) false ⟨last, tokens⟩ with
  | done program errors c => exact ⟨c, by simp [h]⟩
  | fault error errors c =>
      rw [h] at hmeets
      exact hmeets.elim
  | starved =>
      rw [h] at hmeets
      exact hmeets.elim

end Scriptlet
