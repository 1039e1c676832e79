import Scriptlet.Tree.Basic
import Scriptlet.Tree.Cursor

/-!
# `Scriptlet.Tree.Parse`: from tokens to trees

Recursive descent over the tokens of a program. Binary operators come in levels
(`binaryLevels`), the loosest first, and each level groups to the left; assignment is looser
than all of them and groups to the right. A `for` loop has no tree of its own: `Stmt.ofFor`
says which statements it stands for.

An error in a declaration is reported, the rest of the declaration is skipped, and parsing
goes on with the next one. Three errors are reported without stopping anything: too many
parameters, too many arguments, and an assignment to what is no variable.

All parsers of the recursion count down the same supply of steps. `parse` gives them more
than they can use: between two tokens that are read lie fewer than sixteen calls.
-/

set_option autoImplicit false

namespace Scriptlet

/-- The statements that a `for` loop stands for: the loop runs in a block with its
initializer, and each round runs the body and then the increment. -/
def Stmt.ofFor (init : Option Stmt) (condition increment : Option Expr) (body : Stmt) :
    Stmt :=
  let round :=
    match increment with
    | some e => .block [body, .expression e]
    | none => body
  let repeated := .loop (condition.getD (.literal (.bool true))) round
  match init with
  | some first => .block [first, repeated]
  | none => repeated

/-- Operators that bind equally tightly. -/
structure Level where
  operators : List Kind
  /-- Whether the first operand can make the second one superfluous. -/
  logical : Bool

/-- The tree of an operator of this level between two operands. -/
def Level.join (level : Level) (left : Expr) (op : Token) (right : Expr) : Expr :=
  if level.logical then .logical left op right else .binary left op right

/-- The levels of binary operators, the loosest first. -/
def binaryLevels : List Level :=
  [⟨[.keyword .orWord], true⟩,
    ⟨[.keyword .andWord], true⟩,
    ⟨[.mark .equalEqual, .mark .bangEqual], false⟩,
    ⟨[.mark .greater, .mark .greaterEqual, .mark .less, .mark .lessEqual], false⟩,
    ⟨[.mark .plus, .mark .minus], false⟩,
    ⟨[.mark .star, .mark .slash], false⟩]

namespace Parser

/-- Reports an error at the current token if there are already as many items as allowed. -/
def checkLimit (count : Nat) (defect : Defect) : Parser Unit := do
  if argumentLimit ≤ count then
    let token ← peek
    report (.ofToken token defect)

/-! ### Expressions -/

mutual

/-- An expression: an assignment, or anything that binds more tightly. -/
def expression : Nat → Parser Expr
  | 0 => starve
  | n + 1 => do
    let target ← binary n binaryLevels
    match ← take? [.mark .equal] with
    | none => pure target
    | some equals =>
      let value ← expression n
      match target with
      | .get name => pure (.set name value)
      | _ =>
        report (.ofToken equals .invalidAssignmentTarget)
        pure target

/-- An expression of the first of these levels, or of a tighter one. -/
def binary : Nat → List Level → Parser Expr
  | 0, _ => starve
  | n + 1, [] => unary n
  | n + 1, level :: tighter => do
    let left ← binary n tighter
    binaryRest n level tighter left

/-- The operators of a level that follow the operand `left`, with their right operands. -/
def binaryRest : Nat → Level → List Level → Expr → Parser Expr
  | 0, _, _, _ => starve
  | n + 1, level, tighter, left => do
    match ← take? level.operators with
    | none => pure left
    | some op =>
      let right ← binary n tighter
      binaryRest n level tighter (level.join left op right)

/-- Operators in front of an operand. -/
def unary : Nat → Parser Expr
  | 0 => starve
  | n + 1 => do
    match ← take? [.mark .bang, .mark .minus] with
    | some op =>
      let operand ← unary n
      pure (.unary op operand)
    | none =>
      let callee ← primary n
      calls n callee

/-- The argument lists that follow what is called. -/
def calls : Nat → Expr → Parser Expr
  | 0, _ => starve
  | n + 1, callee => do
    match ← take? [.mark .leftParen] with
    | none => pure callee
    | some _ =>
      let args ← if ← check (.mark .rightParen) then pure [] else arguments n 0
      let paren ← expect (.mark .rightParen) "after arguments"
      calls n (.call callee paren args)

/-- One or more arguments, behind `count` others. -/
def arguments : Nat → Nat → Parser (List Expr)
  | 0, _ => starve
  | n + 1, count => do
    checkLimit count .tooManyArguments
    let arg ← expression n
    match ← take? [.mark .comma] with
    | none => pure [arg]
    | some _ =>
      let more ← arguments n (count + 1)
      pure (arg :: more)

/-- A constant, a name, or an expression in parentheses. -/
def primary : Nat → Parser Expr
  | 0 => starve
  | n + 1 => do
    let token ← peek
    match token.kind with
    | .keyword .falseWord => advance; pure (.literal (.bool false))
    | .keyword .trueWord => advance; pure (.literal (.bool true))
    | .keyword .nilWord => advance; pure (.literal .nil)
    | .number | .string => advance; pure (.literal (token.literal.getD .nil))
    | .identifier => advance; pure (.get token)
    | .mark .leftParen =>
      -- Behind the end of the list the parenthesis was read before and opens nothing.
      match ← take? [.mark .leftParen] with
      | none => fail .expectedExpression
      | some _ =>
        let inner ← expression n
        let _ ← expect (.mark .rightParen) "after expression"
        pure (.group inner)
    | _ => fail .expectedExpression

end

/-! ### Declarations and statements -/

/-- One or more parameters, behind `count` others. -/
def parameters : Nat → Nat → Parser (List Token)
  | 0, _ => starve
  | n + 1, count => do
    checkLimit count .tooManyParameters
    let param ← expectName "parameter"
    match ← take? [.mark .comma] with
    | none => pure [param]
    | some _ =>
      let more ← parameters n (count + 1)
      pure (param :: more)

/-- A variable declaration, behind its first word. -/
def variableDeclaration (n : Nat) : Parser Stmt := do
  let name ← expectName "variable"
  let init ←
    match ← take? [.mark .equal] with
    | some _ => some <$> expression n
    | none => pure none
  let _ ← expect (.mark .semicolon) "after variable declaration"
  pure (.declare name init)

/-- An expression as a statement. -/
def expressionStatement (n : Nat) : Parser Stmt := do
  let value ← expression n
  let _ ← expect (.mark .semicolon) "after expression"
  pure (.expression value)

/-- A `return` statement, behind its first word. -/
def returnStatement (n : Nat) (word : Token) : Parser Stmt := do
  let result ←
    if ← check (.mark .semicolon) then pure none else some <$> expression n
  let _ ← expect (.mark .semicolon) "after return value"
  pure (.giveBack word result)

/-- The initializer of a `for` loop, with its semicolon. -/
def forInitializer (n : Nat) : Parser (Option Stmt) := do
  match ← take? [.mark .semicolon] with
  | some _ => pure none
  | none =>
    match ← take? [.keyword .varWord] with
    | some _ => some <$> variableDeclaration n
    | none => some <$> expressionStatement n

/-- An expression, unless a token of this kind comes first. -/
def expressionBefore (n : Nat) (kind : Kind) : Parser (Option Expr) := do
  if ← check kind then pure none else some <$> expression n

mutual

/-- A declaration or a statement; nothing, if an error was found in it. -/
def declaration : Nat → Parser (Option Stmt)
  | 0 => starve
  | n + 1 => recover do
    match ← take? [.keyword .funWord, .keyword .varWord] with
    | none => statement n
    | some word =>
      if word.is (.keyword .funWord) then functionDeclaration n else variableDeclaration n

/-- Declarations up to the end, and in a block up to its closing brace. -/
def declarations : Nat → Bool → Parser (List Stmt)
  | 0, _ => starve
  | n + 1, inBlock => do
    if (← atEnd) || (inBlock && (← check (.mark .rightBrace))) then pure []
    else
      let first ← declaration n
      let more ← declarations n inBlock
      pure (first.toList ++ more)

/-- The statements of a block, behind its opening brace. -/
def block : Nat → Parser (List Stmt)
  | 0 => starve
  | n + 1 => do
    let body ← declarations n true
    let _ ← expect (.mark .rightBrace) "after block"
    pure body

/-- A function declaration, behind its first word. -/
def functionDeclaration : Nat → Parser Stmt
  | 0 => starve
  | n + 1 => do
    let name ← expectName "function"
    let _ ← expect (.mark .leftParen) "after function name"
    let params ← if ← check (.mark .rightParen) then pure [] else parameters n 0
    let _ ← expect (.mark .rightParen) "after parameters"
    let _ ← expect (.mark .leftBrace) "before function body"
    let body ← block n
    pure (.function name params body)

/-- A statement. -/
def statement : Nat → Parser Stmt
  | 0 => starve
  | n + 1 => do
    match ← take? [.keyword .forWord, .keyword .ifWord, .keyword .returnWord,
        .keyword .whileWord, .mark .leftBrace] with
    | none => expressionStatement n
    | some word =>
      match word.kind with
      | .keyword .forWord => forStatement n
      | .keyword .ifWord => ifStatement n
      | .keyword .returnWord => returnStatement n word
      | .keyword .whileWord => whileStatement n
      | _ => Stmt.block <$> block n

/-- A `for` loop, behind its first word. -/
def forStatement : Nat → Parser Stmt
  | 0 => starve
  | n + 1 => do
    let _ ← expect (.mark .leftParen) "after 'for'"
    let init ← forInitializer n
    let condition ← expressionBefore n (.mark .semicolon)
    let _ ← expect (.mark .semicolon) "after loop condition"
    let increment ← expressionBefore n (.mark .rightParen)
    let _ ← expect (.mark .rightParen) "after for clauses"
    let body ← statement n
    pure (.ofFor init condition increment body)

/-- An `if` statement, behind its first word. An `else` belongs to the nearest one. -/
def ifStatement : Nat → Parser Stmt
  | 0 => starve
  | n + 1 => do
    let _ ← expect (.mark .leftParen) "after 'if'"
    let condition ← expression n
    let _ ← expect (.mark .rightParen) "after if condition"
    let yes ← statement n
    match ← take? [.keyword .elseWord] with
    | none => pure (.branch condition yes none)
    | some _ =>
      let no ← statement n
      pure (.branch condition yes (some no))

/-- A `while` loop, behind its first word. -/
def whileStatement : Nat → Parser Stmt
  | 0 => starve
  | n + 1 => do
    let _ ← expect (.mark .leftParen) "after 'while'"
    let condition ← expression n
    let _ ← expect (.mark .rightParen) "after condition"
    let body ← statement n
    pure (.loop condition body)

end

end Parser

/-- A token list read to its end. -/
structure Parse where
  /-- The declarations in which no error was found, in order. -/
  program : Program
  /-- The errors in the order in which they were found. -/
  errors : List StaticError

/-- More steps than the parsers can use on a list of tokens. -/
def parseSteps (tokens : List Token) : Nat := 16 * (tokens.length + 2)

/-- Parses a list of tokens up to the first end token. -/
def parse (tokens : List Token) : Parse :=
  match tokens.getLast? with
  | none => ⟨[], []⟩
  | some last =>
    match Parser.declarations (parseSteps tokens) false ⟨last, tokens⟩ with
    | .done program errors _ => ⟨program, errors⟩
    | .fault error errors _ => ⟨[], errors ++ [error]⟩
    | .starved => ⟨[], []⟩

end Scriptlet
