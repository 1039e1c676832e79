/-!
# `Scriptlet.Lexical.Kind`: kinds of tokens

A token is a mark (an operator or a punctuation sign), a word that may or may not be
reserved, a literal, or the end of the source. `Kind.text` is the name under which a kind
appears in messages: the spelling itself where the kind has only one.
-/

set_option autoImplicit false

namespace Scriptlet

/-- Operators and punctuation. -/
inductive Mark where
  | leftParen | rightParen | leftBrace | rightBrace
  | comma | dot | semicolon
  | minus | plus | slash | star
  | bang | bangEqual | equal | equalEqual
  | greater | greaterEqual | less | lessEqual
  deriving DecidableEq, Repr

/-- The spelling of a mark. -/
def Mark.text : Mark → String
  | leftParen => "("
  | rightParen => ")"
  | leftBrace => "\x7b"
  | rightBrace => "\x7d"
  | comma => ","
  | dot => "."
  | semicolon => ";"
  | minus => "-"
  | plus => "+"
  | slash => "/"
  | star => "*"
  | bang => "!"
  | bangEqual => "!="
  | equal => "="
  | equalEqual => "=="
  | greater => ">"
  | greaterEqual => ">="
  | less => "<"
  | lessEqual => "<="

/-- The mark that a character spells on its own. -/
def Mark.ofChar? : Char → Option Mark
  | '(' => some leftParen
  | ')' => some rightParen
  | '\x7b' => some leftBrace
  | '\x7d' => some rightBrace
  | ',' => some comma
  | '.' => some dot
  | ';' => some semicolon
  | '-' => some minus
  | '+' => some plus
  | '/' => some slash
  | '*' => some star
  | '!' => some bang
  | '=' => some equal
  | '>' => some greater
  | '<' => some less
  | _ => none

/-- The mark that an equals sign behind a mark extends it to. -/
def Mark.withEqual? : Mark → Option Mark
  | bang => some bangEqual
  | equal => some equalEqual
  | greater => some greaterEqual
  | less => some lessEqual
  | _ => none

/-- Reserved words. -/
inductive Keyword where
  | andWord | classWord | elseWord | falseWord | forWord | funWord | ifWord
  | nilWord | orWord | returnWord | superWord | thisWord | trueWord | varWord
  | whileWord
  deriving DecidableEq, Repr

/-- The spelling of a reserved word. -/
def Keyword.text : Keyword → String
  | andWord => "and"
  | classWord => "class"
  | elseWord => "else"
  | falseWord => "false"
  | forWord => "for"
  | funWord => "fun"
  | ifWord => "if"
  | nilWord => "nil"
  | orWord => "or"
  | returnWord => "return"
  | superWord => "super"
  | thisWord => "this"
  | trueWord => "true"
  | varWord => "var"
  | whileWord => "while"

/-- Every reserved word once, in alphabetical order. -/
def Keyword.all : List Keyword :=
  [andWord, classWord, elseWord, falseWord, forWord, funWord, ifWord, nilWord,
    orWord, returnWord, superWord, thisWord, trueWord, varWord, whileWord]

/-- No reserved word is missing in the list. -/
theorem Keyword.mem_all (k : Keyword) : k ∈ Keyword.all := by
  cases k <;> decide

/-- Kinds of tokens. -/
inductive Kind where
  /-- An operator or a punctuation sign. -/
  | mark (m : Mark)
  /-- A word that is not reserved. -/
  | identifier
  /-- A text in double quotes. -/
  | string
  /-- A number in digits. -/
  | number
  /-- A reserved word. -/
  | keyword (k : Keyword)
  /-- The end of the source. -/
  | eof
  deriving DecidableEq, Repr

/-- The name of a kind in messages. -/
def Kind.text : Kind → String
  | mark m => m.text
  | identifier => "identifier"
  | string => "string"
  | number => "number"
  | keyword k => k.text
  | eof => "EOF"

/-- Whether a token of this kind may open a declaration or a statement by a word of its
own. A parser that lost its way starts again at such a token. -/
def Kind.startsStatement : Kind → Bool
  | keyword .classWord | keyword .funWord | keyword .varWord | keyword .forWord
  | keyword .ifWord | keyword .whileWord | keyword .returnWord => true
  | _ => false

end Scriptlet
