import Scriptlet.Lexical.Scan
import Scriptlet.Tree.Parse

/-!
# `Scriptlet.Tree.Analysis`: from a source to a program

All that can be said of a source before it runs: its program, and everything that is wrong
with it. The scan comes first and goes through the whole source; what it could not read is
missing from the tokens that are parsed.
-/

set_option autoImplicit false

namespace Scriptlet

/-- A source, scanned and parsed. -/
structure Analysis where
  program : Program
  /-- How many tokens the source has, with the end token. -/
  tokenCount : Nat
  scanErrors : List StaticError
  parseErrors : List StaticError
  /-- The symbols issued by the end. -/
  lexicon : Lexicon

namespace Analysis

/-- Scans and parses a source. -/
def ofSource (source : String) (lexicon : Lexicon) : Analysis :=
  let scanned := scan source lexicon
  let parsed := parse scanned.tokens
  ⟨parsed.program, scanned.tokens.length, scanned.errors, parsed.errors, scanned.lexicon⟩

/-- All errors of a source, those of the scan first. -/
def errors (a : Analysis) : List StaticError :=
  a.scanErrors ++ a.parseErrors

end Analysis

end Scriptlet
