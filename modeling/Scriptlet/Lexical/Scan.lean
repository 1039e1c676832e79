import Scriptlet.Lexical.Piece
import Scriptlet.Lexical.StaticError
import Scriptlet.Number.Decimal

/-!
# `Scriptlet.Lexical.Scan`: from pieces to tokens

A `Scanner` stands at a place in a source and knows the line it is on. One `step` takes
one piece: gaps and comments are skipped, the other pieces give a token or an error. The
line only moves forward by the line ends in the piece, so that every token and every error
carries the line on which its piece ends.

* `Scanner.next` is the next token or error; at the end of the source it is the end token,
  again and again.
* `scan` reads a whole source: all its tokens, the end token last, and all its errors.
-/

set_option autoImplicit false

namespace Scriptlet

/-- A place in a source. -/
structure Scanner where
  /-- The source from here on. -/
  rest : List Char
  /-- The line of this place, counted from one. -/
  line : Nat
  /-- The symbols issued so far. -/
  lexicon : Lexicon

/-- What a piece of source gives. -/
inductive Reading where
  | skipped
  | token (t : Token)
  | error (e : StaticError)

namespace Scanner

/-- A scanner at the start of a source. -/
def ofSource (source : String) (lexicon : Lexicon) : Scanner :=
  ⟨source.toList, 1, lexicon⟩

/-- A token whose spelling is shared with all tokens spelled alike. -/
def sharedToken (lexicon : Lexicon) (line : Nat) (kind : Kind) (spelling : List Char) :
    Token × Lexicon :=
  let (symbol, lexicon) := lexicon.intern (String.ofList spelling)
  (⟨kind, symbol, none, line⟩, lexicon)

/-- A token for a word: reserved, or a name. -/
def wordToken (lexicon : Lexicon) (line : Nat) (letters : List Char) : Token × Lexicon :=
  let (symbol, lexicon) := lexicon.intern (String.ofList letters)
  let kind :=
    match lexicon.keyword? symbol with
    | some k => .keyword k
    | none => .identifier
  (⟨kind, symbol, none, line⟩, lexicon)

/-- A token for a constant. Its spelling is a symbol of its own, since it never names
anything. -/
def literalToken (lexicon : Lexicon) (line : Nat) (kind : Kind) (spelling : List Char)
    (literal : Literal) : Token × Lexicon :=
  let (symbol, lexicon) := lexicon.detach (String.ofList spelling)
  (⟨kind, symbol, some literal, line⟩, lexicon)

/-- The token or the error of a piece that ends on the line `line`. -/
def read (lexicon : Lexicon) (line : Nat) (piece : Piece) : Reading × Lexicon :=
  match piece with
  | .newline | .blank _ | .comment _ => (.skipped, lexicon)
  | .mark m =>
    let (token, lexicon) := sharedToken lexicon line (.mark m) piece.spelling
    (.token token, lexicon)
  | .word letters =>
    let (token, lexicon) := wordToken lexicon line letters
    (.token token, lexicon)
  | .number whole fraction =>
    let value := Binary64.toFloat false (Decimal.ofDigits whole fraction).magnitude
    let (token, lexicon) := literalToken lexicon line .number piece.spelling (.number value)
    (.token token, lexicon)
  | .quoted body =>
    let (token, lexicon) :=
      literalToken lexicon line .string piece.spelling (.string (String.ofList body))
    (.token token, lexicon)
  | .stray c => (.error (.ofLine line (.unexpectedChar c)), lexicon)
  | .unclosed _ => (.error (.ofLine line .unterminatedString), lexicon)

/-- Takes the piece at the front, if there is one. -/
def step (s : Scanner) : Option (Reading × Scanner) :=
  match s.rest with
  | [] => none
  | c :: source =>
    let (piece, rest) := Piece.first c source
    let line := s.line + Piece.newlines piece.spelling
    let (reading, lexicon) := read s.lexicon line piece
    some (reading, ⟨rest, line, lexicon⟩)

/-- A step leaves less source behind. -/
theorem length_rest_of_step {s s' : Scanner} {reading : Reading}
    (h : s.step = some (reading, s')) : s'.rest.length < s.rest.length := by
  unfold step at h
  split at h
  case h_1 => cases h
  case h_2 c source hrest =>
    have hle := Piece.length_rest_le c source
    injection h with h
    injection h with _ h
    subst h
    rw [hrest]
    exact Nat.lt_succ_of_le hle

/-- The token for the end of the source, which is spelled by nothing. -/
def endToken (s : Scanner) : Token × Scanner :=
  let (token, lexicon) := sharedToken s.lexicon s.line .eof []
  (token, { s with lexicon })

/-- The next token or the next error. -/
def next (s : Scanner) : Except StaticError Token × Scanner :=
  match _taken : s.step with
  | none =>
    let (token, s) := s.endToken
    (.ok token, s)
  | some (.skipped, s') => next s'
  | some (.token token, s') => (.ok token, s')
  | some (.error e, s') => (.error e, s')
termination_by s.rest.length
decreasing_by exact length_rest_of_step _taken

end Scanner

/-- A source read to its end. -/
structure Scan where
  /-- The tokens in the order of the source, the end token last. -/
  tokens : List Token
  /-- The errors in the order of the source. -/
  errors : List StaticError
  /-- The symbols issued by the end. -/
  lexicon : Lexicon

namespace Scan

/-- What a piece contributes, put in front of what the source behind it gives. -/
def prepend (reading : Reading) (later : Scan) : Scan :=
  match reading with
  | .skipped => later
  | .token t => { later with tokens := t :: later.tokens }
  | .error e => { later with errors := e :: later.errors }

/-- All tokens and errors from a place on. -/
def ofScanner (s : Scanner) : Scan :=
  match _taken : s.step with
  | none =>
    let (token, s) := s.endToken
    ⟨[token], [], s.lexicon⟩
  | some (reading, s') => prepend reading (ofScanner s')
termination_by s.rest.length
decreasing_by exact Scanner.length_rest_of_step _taken

end Scan

/-- All tokens and errors of a source. -/
def scan (source : String) (lexicon : Lexicon) : Scan :=
  Scan.ofScanner (.ofSource source lexicon)

end Scriptlet
