import Scriptlet.Number.Shortest

/-!
# `Scriptlet.Number.Text`: numbers as text

`Number.text` writes a double the way scripts print it, and `Number.read?` reads a text
as a double. Reading accepts more than writing produces: a sign, the words for infinity
and for what is not a number in any case, a point with digits on one side only, and an
exponent.
-/

set_option autoImplicit false

namespace Scriptlet.Number

/-- The digits of a finite magnitude. -/
def finiteText (magnitude : Nat) : List Char :=
  if magnitude = 0 then ['0'] else (Decimal.shortest magnitude).text

/-- The text of a double: the fewest digits that read back, always positional, a minus
sign on every negative number and on negative zero, and a word for what has no digits. -/
def text (x : Float) : String :=
  let (negative, magnitude) := Binary64.ofFloat x
  if Binary64.infinity < magnitude then "NaN"
  else
    let body :=
      if magnitude = Binary64.infinity then ['i', 'n', 'f'] else finiteText magnitude
    String.ofList (if negative then '-' :: body else body)

/-- An exponent stops growing once it is this large: no double is that far from one. -/
def exponentLimit : Nat := 65536

/-- The value of an exponent's digits, cut off where it no longer matters. -/
def exponentValue (digits : List Char) : Nat :=
  digits.foldl
    (fun value c => if value < exponentLimit then 10 * value + (c.toNat - '0'.toNat) else value)
    0

/-- The exponent part that ends a number: nothing, or `e`, a sign and digits. -/
def readExponent? : List Char → Option Int
  | [] => some 0
  | c :: rest =>
    if c = 'e' ∨ c = 'E' then
      let (negative, digits) :=
        match rest with
        | '-' :: digits => (true, digits)
        | '+' :: digits => (false, digits)
        | digits => (false, digits)
      if digits.isEmpty || !digits.all Char.isDigit then none
      else some (if negative then -(exponentValue digits : Int) else (exponentValue digits : Int))
    else none

/-- A number in digits: at least one digit before or behind an optional point, then an
optional exponent. -/
def readDecimal? (text : List Char) : Option Decimal :=
  let whole := text.takeWhile Char.isDigit
  let (fraction, rest) :=
    match text.dropWhile Char.isDigit with
    | '.' :: rest => (rest.takeWhile Char.isDigit, rest.dropWhile Char.isDigit)
    | rest => ([], rest)
  if whole.isEmpty && fraction.isEmpty then none
  else
    (readExponent? rest).map fun exponent =>
      let decimal := Decimal.ofDigits whole fraction
      ⟨decimal.digits, decimal.exponent + exponent⟩

/-- An unsigned number: a word, or digits. -/
def readMagnitude? (text : List Char) : Option Nat :=
  let lower := text.map Char.toLower
  if lower = "inf".toList ∨ lower = "infinity".toList then some Binary64.infinity
  else if lower = "nan".toList then some (Binary64.infinity + Binary64.span / 2)
  else (readDecimal? text).map Decimal.magnitude

/-- The double that a text names, if it names one. No blanks are allowed around it. -/
def read? (text : List Char) : Option Float :=
  match text with
  | '-' :: rest => (readMagnitude? rest).map (Binary64.toFloat true)
  | '+' :: rest => (readMagnitude? rest).map (Binary64.toFloat false)
  | rest => (readMagnitude? rest).map (Binary64.toFloat false)

end Scriptlet.Number
