import Scriptlet.Lexical.Kind

/-!
# `Scriptlet.Lexical.Symbol`: names by identity

Names are compared by identity, not by their letters. A `Lexicon` issues the symbols: it
hands out one symbol per distinct name (`intern`), remembers which of them are reserved,
and also issues symbols that stand for themselves only (`detach`), for the spellings of
literals, which name nothing and would otherwise make the lexicon grow for ever.

A symbol is the number it was issued under, together with the lexicon's tag; its name goes
along for messages and takes no part in the comparison. So two symbols of one lexicon are
equal when they were issued together, and symbols of lexicons with different tags are
never equal.
-/

set_option autoImplicit false

namespace Scriptlet

/-- An identity issued by a lexicon, with the name it was issued for. -/
structure Symbol where
  /-- The tag of the lexicon that issued the symbol. -/
  lexicon : Nat
  /-- The number under which it was issued. -/
  serial : Nat
  /-- What the symbol spells. -/
  name : String
  deriving Repr, Inhabited

/-- Symbols are compared by issue, whatever they spell. -/
instance : BEq Symbol where
  beq a b := a.serial == b.serial && a.lexicon == b.lexicon

/-- Symbols are equal if one lexicon issued both under one number. -/
theorem Symbol.beq_iff {a b : Symbol} :
    (a == b) = true ↔ a.serial = b.serial ∧ a.lexicon = b.lexicon := by
  simp [BEq.beq, Bool.and_eq_true]

/-- Comparison by issue is an equivalence. -/
instance : EquivBEq Symbol where
  rfl := Symbol.beq_iff.2 ⟨rfl, rfl⟩
  symm h := by
    have h := Symbol.beq_iff.1 h
    exact Symbol.beq_iff.2 ⟨h.1.symm, h.2.symm⟩
  trans h h' := by
    have h := Symbol.beq_iff.1 h
    have h' := Symbol.beq_iff.1 h'
    exact Symbol.beq_iff.2 ⟨h.1.trans h'.1, h.2.trans h'.2⟩

/-- The symbols issued in one session. -/
structure Lexicon where
  /-- Sets the symbols of this lexicon apart from those of others. -/
  tag : Nat
  /-- How many symbols were issued. -/
  issued : Nat
  /-- The shared symbols, the latest first. -/
  interned : List Symbol
  /-- The symbols of the reserved words. -/
  reserved : List (Symbol × Keyword)
  deriving Repr, Inhabited

namespace Lexicon

/-- Issues a new symbol, which equals no symbol issued before. -/
def issue (l : Lexicon) (name : String) : Symbol × Lexicon :=
  (⟨l.tag, l.issued, name⟩, { l with issued := l.issued + 1 })

/-- The shared symbol of a name, if it has one already. -/
def find? (l : Lexicon) (name : String) : Option Symbol :=
  l.interned.find? fun symbol => symbol.name == name

/-- The shared symbol of a name, issued at its first use. -/
def intern (l : Lexicon) (name : String) : Symbol × Lexicon :=
  match l.find? name with
  | some symbol => (symbol, l)
  | none =>
    let (symbol, l) := l.issue name
    (symbol, { l with interned := symbol :: l.interned })

/-- A shared symbol spells the name it was asked for. -/
theorem name_intern (l : Lexicon) (name : String) : (l.intern name).1.name = name := by
  unfold intern find?
  split
  case h_1 symbol h =>
    have := List.find?_some h
    exact eq_of_beq this
  case h_2 => rfl

/-- Asking again gives the same symbol and issues nothing. -/
theorem intern_intern (l : Lexicon) (name : String) :
    (l.intern name).2.intern name = l.intern name := by
  cases h : l.find? name with
  | some symbol => simp only [intern, h]
  | none =>
    -- The symbol just issued is the first one that spells the name.
    simp only [intern, h]
    simp [find?, issue]

/-- A symbol that is equal to no other one, of the same name or not. -/
def detach (l : Lexicon) (name : String) : Symbol × Lexicon :=
  l.issue name

/-- The reserved word behind a symbol of this lexicon. -/
def keyword? (l : Lexicon) (symbol : Symbol) : Option Keyword :=
  (l.reserved.find? fun entry => entry.1 == symbol).map (·.2)

/-- Issues the symbol of a reserved word. -/
def reserve (l : Lexicon) (k : Keyword) : Lexicon :=
  let (symbol, l) := l.intern k.text
  { l with reserved := l.reserved ++ [(symbol, k)] }

/-- A lexicon that knows the reserved words and nothing else. -/
def new (tag : Nat) : Lexicon :=
  Keyword.all.foldl reserve ⟨tag, 0, [], []⟩

/-- The names that have a shared symbol, the latest first. -/
def names (l : Lexicon) : List String :=
  l.interned.map (·.name)

end Lexicon

end Scriptlet
