import Scriptlet.Lexical.StaticError

/-!
# `Scriptlet.Tree.Cursor`: parsers and their replies

A parser reads tokens from a `Cursor` and gives a `Reply`: a value, or the error that made
it stop, in both cases with the errors it reported on its way and the cursor behind what it
read. The tokens of a cursor end at the first end token. A list without an end token ends
where it ends, and errors found there are blamed on its last token.

A parser that recurses counts down a supply of steps. A reply without any result,
`Reply.starved`, says that the supply was too small.
-/

set_option autoImplicit false

namespace Scriptlet

/-- The tokens that are still to be read, and the last token of the whole list. -/
structure Cursor where
  last : Token
  rest : List Token

namespace Cursor

/-- The current token; behind the end of the list, its last one. -/
def peek (c : Cursor) : Token := c.rest.headD c.last

/-- Whether nothing is left to read but possibly an end token. -/
def atEnd (c : Cursor) : Bool :=
  match c.rest with
  | [] => true
  | t :: _ => t.is .eof

/-- Whether a token of this kind can be read. -/
def check (c : Cursor) (kind : Kind) : Bool := !c.atEnd && c.peek.is kind

/-- The cursor behind the current token. There is no way past the end. -/
def advance (c : Cursor) : Cursor :=
  if c.atEnd then c else { c with rest := c.rest.tail }

/-- Skips tokens up to a place where a statement may start, given the token before: behind
a semicolon, or at a word that opens a statement. -/
def skipStatement (previous : Token) : List Token → List Token
  | [] => []
  | t :: rest =>
    if t.is .eof || previous.is (.mark .semicolon) || t.kind.startsStatement then t :: rest
    else skipStatement t rest

/-- The cursor where parsing goes on after an error. At least one token is skipped. -/
def resume (c : Cursor) : Cursor :=
  match c.rest with
  | [] => c
  | t :: rest => if t.is .eof then c else { c with rest := skipStatement t rest }

end Cursor

/-- What a parser gives. -/
inductive Reply (α : Type) where
  /-- A value, the errors reported on the way, and the cursor behind it. -/
  | done (value : α) (reported : List StaticError) (cursor : Cursor)
  /-- The error that stopped the parser, the errors reported before, and the cursor. -/
  | fault (error : StaticError) (reported : List StaticError) (cursor : Cursor)
  /-- The supply of steps was too small. -/
  | starved

/-- A reply with errors that were reported earlier. -/
def Reply.after {α : Type} (early : List StaticError) : Reply α → Reply α
  | done value reported cursor => done value (early ++ reported) cursor
  | fault error reported cursor => fault error (early ++ reported) cursor
  | starved => starved

/-- Reads tokens. -/
def Parser (α : Type) : Type := Cursor → Reply α

namespace Parser

variable {α β : Type}

/-- Reads nothing. -/
protected def pure (value : α) : Parser α := fun c => .done value [] c

/-- Reads on with a parser that knows what was read so far. -/
protected def bind (p : Parser α) (next : α → Parser β) : Parser β := fun c =>
  match p c with
  | .done value reported c => (next value c).after reported
  | .fault error reported c => .fault error reported c
  | .starved => .starved

instance : Monad Parser where
  pure := Parser.pure
  bind := Parser.bind

/-- Has run out of steps. -/
def starve : Parser α := fun _ => .starved

/-- Stops with an error at the current token. -/
def fail (defect : Defect) : Parser α := fun c =>
  .fault (.ofToken c.peek defect) [] c

/-- Reports an error and goes on. -/
def report (error : StaticError) : Parser Unit := fun c => .done () [error] c

/-- The current token, which stays where it is. -/
def peek : Parser Token := fun c => .done c.peek [] c

/-- Whether a token of this kind comes next. -/
def check (kind : Kind) : Parser Bool := fun c => .done (c.check kind) [] c

/-- Whether nothing is left to read. -/
def atEnd : Parser Bool := fun c => .done c.atEnd [] c

/-- Goes past the current token. -/
def advance : Parser Unit := fun c => .done () [] c.advance

/-- The next token, if it is of one of these kinds. -/
def take? (kinds : List Kind) : Parser (Option Token) := fun c =>
  if kinds.any c.check then .done (some c.peek) [] c.advance else .done none [] c

/-- The next token, which has to be of this kind. -/
def expect (expected : Kind) (place : String) : Parser Token := fun c =>
  if c.check expected then .done c.peek [] c.advance
  else .fault (.ofToken c.peek (.expectedToken expected place)) [] c

/-- The next token, which has to name a `thing`. -/
def expectName (thing : String) : Parser Token := fun c =>
  if c.check .identifier then .done c.peek [] c.advance
  else .fault (.ofToken c.peek (.expectedName thing)) [] c

/-- Turns the error that stops a parser into a reported one, and goes on at the next
statement without a value. -/
def recover (p : Parser α) : Parser (Option α) := fun c =>
  match p c with
  | .done value reported c => .done (some value) reported c
  | .fault error reported c => .done none (reported ++ [error]) c.resume
  | .starved => .starved

end Parser

end Scriptlet
