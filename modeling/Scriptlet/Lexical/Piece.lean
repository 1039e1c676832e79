import Scriptlet.Lexical.Kind

/-!
# `Scriptlet.Lexical.Piece`: a source as a row of pieces

A source is a row of pieces: blanks, comments, marks, words, numbers, texts in quotes, and
the two kinds of stretches that are no part of the language. `Piece.first` cuts off the
piece that starts with a given character. It takes as much as belongs to the piece, and
`spelling_append_rest` says that it takes nothing else: the spelling of the piece and the
rest make up the source again.
-/

set_option autoImplicit false

namespace Scriptlet

/-- A stretch of source text. -/
inductive Piece where
  /-- The end of a line. -/
  | newline
  /-- A space, a tabulator or a carriage return. -/
  | blank (c : Char)
  /-- Two slashes and the rest of the line. -/
  | comment (body : List Char)
  /-- An operator or a punctuation sign. -/
  | mark (m : Mark)
  /-- A name or a reserved word. -/
  | word (letters : List Char)
  /-- Digits, and possibly a point and more digits. -/
  | number (whole fraction : List Char)
  /-- A text between double quotes. -/
  | quoted (body : List Char)
  /-- A character that starts no piece. -/
  | stray (c : Char)
  /-- A double quote without a second one, and all that follows. -/
  | unclosed (body : List Char)
  deriving DecidableEq, Repr

namespace Piece

/-- The source text of a piece. -/
def spelling : Piece → List Char
  | newline => ['\n']
  | blank c => [c]
  | comment body => '/' :: '/' :: body
  | mark m => m.text.toList
  | word letters => letters
  | number whole [] => whole
  | number whole fraction => whole ++ '.' :: fraction
  | quoted body => '"' :: body ++ ['"']
  | stray c => [c]
  | unclosed body => '"' :: body

/-- Characters that separate tokens within a line. -/
def isGap (c : Char) : Bool := c == ' ' || c == '\t' || c == '\r'

/-- Characters a word may start with. -/
def isWordStart (c : Char) : Bool := c.isAlpha || c == '_'

/-- Characters a word may go on with. -/
def isWordPart (c : Char) : Bool := c.isAlphanum || c == '_'

/-- The comment behind two slashes: it ends before the end of its line. -/
def firstComment (source : List Char) : Piece × List Char :=
  (comment (source.takeWhile (· != '\n')), source.dropWhile (· != '\n'))

/-- The text behind a double quote, up to the next one. -/
def firstQuoted (source : List Char) : Piece × List Char :=
  let body := source.takeWhile (· != '"')
  match source.dropWhile (· != '"') with
  | _ :: rest => (quoted body, rest)
  | [] => (unclosed body, [])

/-- The word that starts with the character `c`. -/
def firstWord (c : Char) (source : List Char) : Piece × List Char :=
  (word (c :: source.takeWhile isWordPart), source.dropWhile isWordPart)

/-- The number that starts with the digit `c`. A point belongs to it only with a digit
behind it. -/
def firstNumber (c : Char) (source : List Char) : Piece × List Char :=
  let whole := c :: source.takeWhile Char.isDigit
  match source.dropWhile Char.isDigit with
  | '.' :: d :: rest =>
    if d.isDigit then
      (number whole (d :: rest.takeWhile Char.isDigit), rest.dropWhile Char.isDigit)
    else (number whole [], '.' :: d :: rest)
  | rest => (number whole [], rest)

/-- The mark that starts with the mark `m`, which is longer by one if an equals sign
follows and makes another mark of it. -/
def firstMark (m : Mark) (source : List Char) : Piece × List Char :=
  match m.withEqual?, source with
  | some longer, '=' :: rest => (mark longer, rest)
  | _, _ => (mark m, source)

/-- The piece that starts with the character `c`, and the source behind it. -/
def first (c : Char) (source : List Char) : Piece × List Char :=
  if c == '\n' then (newline, source)
  else if isGap c then (blank c, source)
  else if c == '"' then firstQuoted source
  else if c.isDigit then firstNumber c source
  else if isWordStart c then firstWord c source
  else
    match c, source with
    | '/', '/' :: rest => firstComment rest
    | _, _ =>
      match Mark.ofChar? c with
      | some m => firstMark m source
      | none => (stray c, source)

/-- The number of line ends in a stretch of text. -/
def newlines (text : List Char) : Nat := text.count '\n'

/-! ### Nothing is lost -/

/-- A mark of one character is spelled by it. -/
theorem text_of_ofChar? {c : Char} {m : Mark} (h : Mark.ofChar? c = some m) :
    m.text.toList = [c] := by
  unfold Mark.ofChar? at h
  split at h <;> cases h <;> rfl

/-- An equals sign is all that the longer mark adds to the shorter one. -/
theorem text_of_withEqual? {m longer : Mark} (h : m.withEqual? = some longer) :
    longer.text.toList = m.text.toList ++ ['='] := by
  cases m <;> cases h <;> rfl

/-- A comment takes the two slashes and goes on with the source as it is. -/
theorem spelling_firstComment (source : List Char) :
    (firstComment source).1.spelling ++ (firstComment source).2 = '/' :: '/' :: source := by
  simp [firstComment, spelling]

/-- A text in quotes takes its quotes, and what is left follows it. -/
theorem spelling_firstQuoted (source : List Char) :
    (firstQuoted source).1.spelling ++ (firstQuoted source).2 = '"' :: source := by
  have h := List.takeWhile_append_dropWhile (p := (· != '"')) (l := source)
  unfold firstQuoted
  split
  case h_1 c rest hrest =>
    have hc : c = '"' := by
      have := List.head_dropWhile_not (p := (· != '"')) (l := source) (by simp [hrest])
      simpa [hrest] using this
    rw [hrest, hc] at h
    simp only [spelling, List.cons_append, List.append_assoc, List.nil_append, h]
  case h_2 hrest =>
    rw [hrest] at h
    simpa [spelling] using h

/-- A word takes its first letter and the others behind it. -/
theorem spelling_firstWord (c : Char) (source : List Char) :
    (firstWord c source).1.spelling ++ (firstWord c source).2 = c :: source := by
  simp [firstWord, spelling]

/-- A number takes its digits, and its point only with digits behind it. -/
theorem spelling_firstNumber (c : Char) (source : List Char) :
    (firstNumber c source).1.spelling ++ (firstNumber c source).2 = c :: source := by
  have h := List.takeWhile_append_dropWhile (p := Char.isDigit) (l := source)
  unfold firstNumber
  split
  case h_1 d rest hrest =>
    rw [hrest] at h
    split
    case isTrue =>
      simp only [spelling, List.cons_append, List.append_assoc,
        List.takeWhile_append_dropWhile, h]
    case isFalse => simp only [spelling, List.cons_append, h]
  case h_2 => simp only [spelling, List.cons_append, h]

/-- A mark takes one character or two. -/
theorem spelling_firstMark (m : Mark) (source : List Char) :
    (firstMark m source).1.spelling ++ (firstMark m source).2 = m.text.toList ++ source := by
  unfold firstMark
  split
  case h_1 longer rest h => simp [spelling, text_of_withEqual? h]
  case h_2 => simp [spelling]

/-- The first piece and what is left make up the source. -/
theorem spelling_append_rest (c : Char) (source : List Char) :
    (first c source).1.spelling ++ (first c source).2 = c :: source := by
  unfold first
  -- The cases are those of `first`, in its order.
  split
  case isTrue h => simp_all [spelling]
  split
  case isTrue => rfl
  split
  case isTrue h => rw [spelling_firstQuoted, eq_of_beq h]
  split
  case isTrue => exact spelling_firstNumber c source
  split
  case isTrue => exact spelling_firstWord c source
  split
  case h_1 => exact spelling_firstComment _
  case h_2 =>
    split
    case h_1 m h => rw [spelling_firstMark, text_of_ofChar? h]; rfl
    case h_2 => rfl

/-! ### Something is taken -/

/-- What is left behind some characters is no longer than before. -/
theorem length_dropWhile_le (test : Char → Bool) (source : List Char) :
    (source.dropWhile test).length ≤ source.length :=
  (List.dropWhile_suffix test).length_le

/-- What is left behind the first piece is no longer than what followed its first
character. -/
theorem length_rest_le (c : Char) (source : List Char) :
    (first c source).2.length ≤ source.length := by
  unfold first
  split
  case isTrue => exact Nat.le_refl _
  split
  case isTrue => exact Nat.le_refl _
  split
  case isTrue =>
    -- What follows the text is left, without the quote that closes it.
    have h := length_dropWhile_le (· != '"') source
    unfold firstQuoted
    split
    case h_1 hrest => rw [hrest] at h; exact Nat.le_of_succ_le h
    case h_2 => exact Nat.zero_le _
  split
  case isTrue =>
    have h := length_dropWhile_le Char.isDigit source
    unfold firstNumber
    split
    case h_1 d rest hrest =>
      have hmore := length_dropWhile_le Char.isDigit rest
      rw [hrest] at h
      simp only [List.length_cons] at h
      split <;> simp only [List.length_cons] <;> omega
    case h_2 => exact h
  split
  case isTrue => exact length_dropWhile_le isWordPart source
  split
  case h_1 =>
    exact Nat.le_succ_of_le (length_dropWhile_le _ _)
  case h_2 =>
    split
    case h_1 m _ =>
      unfold firstMark
      split
      case h_1 => simp
      case h_2 => exact Nat.le_refl _
    case h_2 => exact Nat.le_refl _

end Piece

end Scriptlet
