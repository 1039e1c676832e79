import Scriptlet.Proofs.Parser.Reply

/-!
# `Scriptlet.Proofs.Parser.Grammar`: which tokens spell which trees

The grammar of the language, as relations between tokens and trees. It says nothing about
how the trees are found.

* `Derives rung ts e`: the tokens `ts` spell the expression `e` at a rung of the ladder
  `assignment < or < and < equality < comparison < term < factor < unary < call < primary`.
  Operators of one rung group to the left, since a right operand comes from the next rung;
  assignments group to the right and have a name on their left.
* `Declaration ts rest s` and `Statement ts rest s`: the tokens `ts`, in front of the tokens
  `rest`, spell `s`. What follows matters in one place only: an `if` may go without `else`
  only if no `else` follows, so that an `else` belongs to the nearest `if`.
* `Program ts p`: declarations up to the end token spell the program `p`.

A `for` loop spells a block and a loop (`forTree`). Parameters and arguments are lists with
commas between their items (`CommaList`), of at most 255 items.

The last section sets the rungs of the ladder beside the levels of the parser.
-/

set_option autoImplicit false

namespace Scriptlet.Grammar

/-! ### Expressions -/

/-- The rungs of the ladder of expressions, the loosest first. -/
inductive Rung where
  | assignment | disjunction | conjunction | equality | comparison | term | factor
  | unary | call | primary
  deriving DecidableEq, Repr

namespace Rung

/-- The next rung, whose expressions are the operands of this one. -/
def tighter : Rung → Rung
  | assignment => disjunction
  | disjunction => conjunction
  | conjunction => equality
  | equality => comparison
  | comparison => term
  | term => factor
  | factor => unary
  | unary => call
  | call => primary
  | primary => primary

/-- The operators between two operands on this rung. -/
def operators : Rung → List Kind
  | disjunction => [.keyword .orWord]
  | conjunction => [.keyword .andWord]
  | equality => [.mark .equalEqual, .mark .bangEqual]
  | comparison => [.mark .greater, .mark .greaterEqual, .mark .less, .mark .lessEqual]
  | term => [.mark .plus, .mark .minus]
  | factor => [.mark .star, .mark .slash]
  | _ => []

/-- Whether the operators of this rung may leave their second operand alone. -/
def isLogical : Rung → Bool
  | disjunction | conjunction => true
  | _ => false

end Rung

/-- Items in a row with a comma between each two of them. -/
inductive CommaList : List (List Token) → List Token → Prop where
  | none : CommaList [] []
  | one (ts : List Token) : CommaList [ts] ts
  -- The second item is named, so that no comma stands at the end.
  | more {ts us vs : List Token} {rest : List (List Token)} {comma : Token} :
      comma.kind = .mark .comma → CommaList (us :: rest) vs →
      CommaList (ts :: us :: rest) (ts ++ comma :: vs)

/-- The tokens spell the expression at a rung of the ladder. -/
inductive Derives : Rung → List Token → Expr → Prop where
  | falsehood {t : Token} : t.kind = .keyword .falseWord →
      Derives .primary [t] (.literal (.bool false))
  | truth {t : Token} : t.kind = .keyword .trueWord →
      Derives .primary [t] (.literal (.bool true))
  | nothing {t : Token} : t.kind = .keyword .nilWord →
      Derives .primary [t] (.literal .nil)
  /-- A number or a string stands for the constant it carries. -/
  | constant {t : Token} : t.kind = .number ∨ t.kind = .string →
      Derives .primary [t] (.literal (t.literal.getD .nil))
  | name {t : Token} : t.kind = .identifier → Derives .primary [t] (.get t)
  | group {opening closing : Token} {ts : List Token} {e : Expr} :
      opening.kind = .mark .leftParen → Derives .assignment ts e →
      closing.kind = .mark .rightParen →
      Derives .primary (opening :: (ts ++ [closing])) (.group e)
  /-- A call keeps its own closing parenthesis. -/
  | call {opening closing : Token} {fs ts : List Token} {f : Expr}
      {args : List (List Token × Expr)} :
      Derives .call fs f → opening.kind = .mark .leftParen →
      CommaList (args.map (·.1)) ts → (∀ arg ∈ args, Derives .assignment arg.1 arg.2) →
      args.length ≤ 255 → closing.kind = .mark .rightParen →
      Derives .call (fs ++ opening :: (ts ++ [closing])) (.call f closing (args.map (·.2)))
  | unary {op : Token} {ts : List Token} {e : Expr} :
      op.kind ∈ [.mark .bang, .mark .minus] → Derives .unary ts e →
      Derives .unary (op :: ts) (.unary op e)
  | logical {r : Rung} {op : Token} {ls rs : List Token} {a b : Expr} :
      r.isLogical = true → Derives r ls a → op.kind ∈ r.operators → Derives r.tighter rs b →
      Derives r (ls ++ op :: rs) (.logical a op b)
  | binary {r : Rung} {op : Token} {ls rs : List Token} {a b : Expr} :
      r.isLogical = false → Derives r ls a → op.kind ∈ r.operators → Derives r.tighter rs b →
      Derives r (ls ++ op :: rs) (.binary a op b)
  | assign {name equals : Token} {ts : List Token} {e : Expr} :
      name.kind = .identifier → equals.kind = .mark .equal → Derives .assignment ts e →
      Derives .assignment (name :: equals :: ts) (.set name e)
  /-- What binds more tightly may stand where something looser may. -/
  | lift {r : Rung} {ts : List Token} {e : Expr} : Derives r.tighter ts e → Derives r ts e

/-! ### Statements -/

/-- What may stand behind `var`. -/
inductive Binding : List Token → Stmt → Prop where
  | bare {name semicolon : Token} :
      name.kind = .identifier → semicolon.kind = .mark .semicolon →
      Binding [name, semicolon] (.declare name none)
  | valued {name equals semicolon : Token} {ts : List Token} {e : Expr} :
      name.kind = .identifier → equals.kind = .mark .equal → Derives .assignment ts e →
      semicolon.kind = .mark .semicolon →
      Binding (name :: equals :: (ts ++ [semicolon])) (.declare name (some e))

/-- An expression that may be missing. -/
inductive Clause : List Token → Option Expr → Prop where
  | absent : Clause [] none
  | present {ts : List Token} {e : Expr} : Derives .assignment ts e → Clause ts (some e)

/-- The first clause of a `for` loop, with its semicolon. -/
inductive Initializer : List Token → Option Stmt → Prop where
  | absent {semicolon : Token} : semicolon.kind = .mark .semicolon →
      Initializer [semicolon] none
  | binding {word : Token} {ts : List Token} {s : Stmt} :
      word.kind = .keyword .varWord → Binding ts s → Initializer (word :: ts) (some s)
  | expression {semicolon : Token} {ts : List Token} {e : Expr} :
      Derives .assignment ts e → semicolon.kind = .mark .semicolon →
      Initializer (ts ++ [semicolon]) (some (.expression e))

/-- The loop of a `for` loop: each round ends with the increment, and a missing condition
always holds. -/
def roundsTree : Option Expr → Option Expr → Stmt → Stmt
  | some condition, none, body => .loop condition body
  | some condition, some increment, body =>
    .loop condition (.block [body, .expression increment])
  | none, none, body => .loop (.literal (.bool true)) body
  | none, some increment, body =>
    .loop (.literal (.bool true)) (.block [body, .expression increment])

/-- What a `for` loop spells: its loop, in a block with the initializer if there is one. -/
def forTree : Option Stmt → Option Expr → Option Expr → Stmt → Stmt
  | none, condition, increment, body => roundsTree condition increment body
  | some init, condition, increment, body =>
    .block [init, roundsTree condition increment body]

mutual

/-- The tokens, in front of others, spell the declaration or the statement. -/
inductive Declaration : List Token → List Token → Stmt → Prop where
  | function {word name opening closing left right : Token} {params ps ts rest : List Token}
      {body : List Stmt} :
      word.kind = .keyword .funWord → name.kind = .identifier →
      opening.kind = .mark .leftParen → CommaList (params.map fun p => [p]) ps →
      (∀ p ∈ params, p.kind = .identifier) → params.length ≤ 255 →
      closing.kind = .mark .rightParen → left.kind = .mark .leftBrace →
      Declarations ts (right :: rest) body → right.kind = .mark .rightBrace →
      Declaration (word :: name :: opening :: (ps ++ closing :: left :: (ts ++ [right]))) rest
        (.function name params body)
  | binding {word : Token} {ts rest : List Token} {s : Stmt} :
      word.kind = .keyword .varWord → Binding ts s → Declaration (word :: ts) rest s
  | statement {ts rest : List Token} {s : Stmt} :
      Statement ts rest s → Declaration ts rest s

/-- The tokens, in front of others, spell the statement. -/
inductive Statement : List Token → List Token → Stmt → Prop where
  | expression {semicolon : Token} {ts rest : List Token} {e : Expr} :
      Derives .assignment ts e → semicolon.kind = .mark .semicolon →
      Statement (ts ++ [semicolon]) rest (.expression e)
  | block {left right : Token} {ts rest : List Token} {body : List Stmt} :
      left.kind = .mark .leftBrace → Declarations ts (right :: rest) body →
      right.kind = .mark .rightBrace →
      Statement (left :: (ts ++ [right])) rest (.block body)
  /-- Without `else`, and none follows. -/
  | ifThen {word opening closing : Token} {cs ts rest : List Token} {c : Expr} {yes : Stmt} :
      word.kind = .keyword .ifWord → opening.kind = .mark .leftParen →
      Derives .assignment cs c → closing.kind = .mark .rightParen →
      Statement ts rest yes → ¬ StartsWith [.keyword .elseWord] rest →
      Statement (word :: opening :: (cs ++ closing :: ts)) rest (.branch c yes none)
  | ifElse {word opening closing otherwise : Token} {cs ts us rest : List Token} {c : Expr}
      {yes no : Stmt} :
      word.kind = .keyword .ifWord → opening.kind = .mark .leftParen →
      Derives .assignment cs c → closing.kind = .mark .rightParen →
      Statement ts (otherwise :: (us ++ rest)) yes →
      otherwise.kind = .keyword .elseWord → Statement us rest no →
      Statement (word :: opening :: (cs ++ closing :: (ts ++ otherwise :: us))) rest
        (.branch c yes (some no))
  | loop {word opening closing : Token} {cs ts rest : List Token} {c : Expr} {body : Stmt} :
      word.kind = .keyword .whileWord → opening.kind = .mark .leftParen →
      Derives .assignment cs c → closing.kind = .mark .rightParen →
      Statement ts rest body →
      Statement (word :: opening :: (cs ++ closing :: ts)) rest (.loop c body)
  | forLoop {word opening semicolon closing : Token} {ds cs is ts rest : List Token}
      {init : Option Stmt} {condition increment : Option Expr} {body : Stmt} :
      word.kind = .keyword .forWord → opening.kind = .mark .leftParen →
      Initializer ds init → Clause cs condition → semicolon.kind = .mark .semicolon →
      Clause is increment → closing.kind = .mark .rightParen → Statement ts rest body →
      Statement (word :: opening :: (ds ++ (cs ++ semicolon :: (is ++ closing :: ts)))) rest
        (forTree init condition increment body)
  | giveBack {word semicolon : Token} {ts rest : List Token} {result : Option Expr} :
      word.kind = .keyword .returnWord → Clause ts result →
      semicolon.kind = .mark .semicolon →
      Statement (word :: (ts ++ [semicolon])) rest (.giveBack word result)

/-- The tokens, in front of others, spell the declarations one after the other. -/
inductive Declarations : List Token → List Token → List Stmt → Prop where
  | nil {rest : List Token} : Declarations [] rest []
  | cons {ts us rest : List Token} {s : Stmt} {ss : List Stmt} :
      Declaration ts (us ++ rest) s → Declarations us rest ss →
      Declarations (ts ++ us) rest (s :: ss)

end

/-- The tokens spell the program: declarations, and the end token behind them. -/
inductive Program : List Token → List Stmt → Prop where
  | intro {ts : List Token} {final : Token} {p : List Stmt} :
      Declarations ts [final] p → final.kind = .eof → Program (ts ++ [final]) p

/-- A `for` loop spells what the parser builds for it. -/
theorem forTree_eq_ofFor (init : Option Stmt) (condition increment : Option Expr)
    (body : Stmt) : forTree init condition increment body
      = .ofFor init condition increment body := by
  cases init <;> cases condition <;> cases increment <;> rfl

/-! ### Rungs and levels -/

namespace Rung

/-- The levels of binary operators from this rung on. -/
def levels : Rung → List Level
  | assignment | disjunction => binaryLevels
  | conjunction => binaryLevels.drop 1
  | equality => binaryLevels.drop 2
  | comparison => binaryLevels.drop 3
  | term => binaryLevels.drop 4
  | factor => binaryLevels.drop 5
  | _ => []

/-- The level of the operators of this rung. -/
def level (r : Rung) : Level := ⟨r.operators, r.isLogical⟩

/-- A rung with operators is the first of its levels, and the others are those of the next
rung. -/
theorem levels_eq_cons {r : Rung} (h : r.operators ≠ []) :
    r.levels = r.level :: r.tighter.levels := by
  cases r with
  | assignment | unary | call | primary => exact absurd rfl h
  | _ => rfl

/-- The operands of a binary operator are those of another one, or stand below them all. -/
theorem tighter_binary {r : Rung} (h : r.operators ≠ []) :
    r.tighter.operators ≠ [] ∨ r.tighter = .unary := by
  revert h
  cases r <;> decide

/-- The end token is no operator, so no expression goes past it. -/
theorem eof_notMem_operators (r : Rung) : .eof ∉ r.operators := by
  cases r <;> decide

end Rung

/-- An operator of a rung between two operands, whatever the rung. -/
theorem Derives.join {r : Rung} {op : Token} {ls rs : List Token} {a b : Expr}
    (hl : Derives r ls a) (hop : op.kind ∈ r.operators) (hr : Derives r.tighter rs b) :
    Derives r (ls ++ op :: rs) (r.level.join a op b) := by
  unfold Level.join Rung.level
  cases h : r.isLogical with
  | true => exact .logical h hl hop hr
  | false => exact .binary h hl hop hr

/-- A bare variable is spelled by its name alone. -/
theorem Derives.tokens_of_get {r : Rung} {ts : List Token} {name : Token}
    (h : Derives r ts (.get name)) : ts = [name] ∧ name.kind = .identifier := by
  generalize he : Expr.get name = e at h
  induction h with
  | name ht =>
      cases he
      exact ⟨rfl, ht⟩
  | lift _ ih => exact ih he
  | _ => cases he

end Scriptlet.Grammar
