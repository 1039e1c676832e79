import Scriptlet.Lexical.Scan
import Scriptlet.Proofs.Lexical.Lexicon

/-!
# `Scriptlet.Proofs.Lexical.Scan`: what a scan owes to its lexicon

A scan issues symbols, and which numbers they get depends on the lexicon that it starts with.
Nothing else does. Without the numbers, two lexicons that are in order lead to the same tokens
and the same errors (`scan_bare`). A scan leaves a lexicon in order, and every name it found
has a shared symbol in it (`scan_known`).

`Scan.ofScanner` goes from piece to piece. `ofScanner_nil` and `ofScanner_cons` are its
equations, and `Piece.source_induction` is the induction that follows it.
-/

set_option autoImplicit false

namespace Scriptlet

/-- A token without the number of its symbol. -/
def Token.bare (t : Token) : Token := { t with lexeme := ⟨0, 0, t.name⟩ }

/-- Bare tokens are the same when the tokens look the same. -/
theorem Token.bare_eq_iff {t t' : Token} : t.bare = t'.bare ↔
    t.kind = t'.kind ∧ t.name = t'.name ∧ t.literal = t'.literal ∧ t.line = t'.line := by
  simp only [bare, Token.mk.injEq, Symbol.mk.injEq, true_and]

/-- Whether tokens of this kind carry a constant. -/
def Kind.isConstant : Kind → Bool
  | number | string => true
  | _ => false

/-- A reading without the number of its symbol. -/
def Reading.bare : Reading → Reading
  | .token t => .token t.bare
  | other => other

/-! ### Piece by piece -/

/-- What holds of the source behind the first piece if and when it holds of the whole source,
and of the empty source, holds of every source. -/
theorem Piece.source_induction {motive : List Char → Prop} (nil : motive [])
    (cons : ∀ c source, motive (first c source).2 → motive (c :: source)) :
    ∀ source, motive source
  | [] => nil
  | c :: source => cons c source (source_induction nil cons (first c source).2)
termination_by source => source.length
decreasing_by exact Nat.lt_succ_of_le (length_rest_le c source)

namespace Scan

/-- Nothing is left: the end token is given, and its empty name becomes a shared symbol. -/
theorem ofScanner_nil (line : Nat) (l : Lexicon) :
    ofScanner ⟨[], line, l⟩ = ⟨[⟨.eof, (l.intern "").1, none, line⟩], [], (l.intern "").2⟩ := by
  rw [ofScanner]
  rfl

/-- The first piece is read, and the rest is scanned from where the piece ends. -/
theorem ofScanner_cons (c : Char) (source : List Char) (line : Nat) (l : Lexicon) :
    let piece := (Piece.first c source).1
    let ending := line + Piece.newlines piece.spelling
    let read := Scanner.read l ending piece
    ofScanner ⟨c :: source, line, l⟩ =
      prepend read.1 (ofScanner ⟨(Piece.first c source).2, ending, read.2⟩) := by
  rw [ofScanner]
  rfl

end Scan

/-! ### The lexicon behind a scan -/

namespace Scanner

open Lexicon

/-- Reading a piece leaves the lexicon in order. -/
theorem read_sound {l : Lexicon} (h : l.Sound) (line : Nat) (piece : Piece) :
    (read l line piece).2.Sound := by
  cases piece with
  | newline | blank | comment | stray | unclosed => exact h
  | mark | word => exact h.intern _
  | number | quoted => exact h.issue ""

/-- Reading a piece adds symbols to the lexicon and takes none away. -/
theorem read_grows (l : Lexicon) (line : Nat) (piece : Piece) :
    l.Grows (read l line piece).2 := by
  cases piece with
  | newline | blank | comment | stray | unclosed => exact .refl l
  | mark | word => exact intern_grows l _
  | number | quoted => exact issue_grows l ""

/-- A name that was read has a shared symbol. -/
theorem read_mem {l : Lexicon} {line : Nat} {piece : Piece} {t : Token}
    (h : (read l line piece).1 = .token t) (ht : t.kind = .identifier) :
    t.lexeme ∈ (read l line piece).2.interned := by
  cases piece with
  | newline | blank | comment | stray | unclosed => cases h
  | mark | word =>
      cases h
      exact mem_intern l _
  | number | quoted =>
      cases h
      cases ht

/-- The symbol of a token is shared, unless it spells a constant. -/
theorem read_shared {l : Lexicon} {line : Nat} {piece : Piece} {t : Token}
    (h : (read l line piece).1 = .token t) (ht : t.kind.isConstant = false) :
    t.lexeme ∈ (read l line piece).2.interned := by
  cases piece with
  | newline | blank | comment | stray | unclosed => cases h
  | mark | word =>
      cases h
      exact mem_intern l _
  | number | quoted =>
      cases h
      cases ht

/-- A word is of the kind that the lexicon says. -/
theorem kind_wordToken (l : Lexicon) (line : Nat) (letters : List Char) :
    (wordToken l line letters).1.kind =
      let interned := l.intern (String.ofList letters)
      (interned.2.keyword? interned.1).elim .identifier .keyword := by
  unfold wordToken
  dsimp only
  split
  case h_1 k hk => rw [hk, Option.elim_some]
  case h_2 hk => rw [hk, Option.elim_none]

/-- Two lexicons in order tell the same words from names. -/
theorem keyword?_eq {l l' : Lexicon} (h : l.Sound) (h' : l'.Sound) {s s' : Symbol}
    (hs : s ∈ l.interned) (hs' : s' ∈ l'.interned) (hname : s.name = s'.name) :
    l.keyword? s = l'.keyword? s' := by
  ext k
  rw [h.keyword?_iff hs, h'.keyword?_iff hs', hname]

/-- Two lexicons in order read a piece the same way, but for the numbers of symbols. -/
theorem read_bare {l l' : Lexicon} (h : l.Sound) (h' : l'.Sound) (line : Nat)
    (piece : Piece) : (read l line piece).1.bare = (read l' line piece).1.bare := by
  cases piece with
  | newline | blank | comment | stray | unclosed | number | quoted => rfl
  | mark m =>
      refine congrArg Reading.token (Token.bare_eq_iff.2 ⟨rfl, ?_, rfl, rfl⟩)
      exact (name_intern l _).trans (name_intern l' _).symm
  | word letters =>
      have hname := (name_intern l (String.ofList letters)).trans
        (name_intern l' (String.ofList letters)).symm
      -- Whether the word is reserved depends on its name alone, whatever its number is.
      have hkeyword := keyword?_eq (h.intern _) (h'.intern _) (mem_intern l _)
        (mem_intern l' _) hname
      have hkind : (wordToken l line letters).1.kind = (wordToken l' line letters).1.kind := by
        rw [kind_wordToken, kind_wordToken]
        dsimp only
        rw [hkeyword]
      exact congrArg Reading.token (Token.bare_eq_iff.2 ⟨hkind, hname, rfl, rfl⟩)

end Scanner

/-- The scan left a lexicon in order, which grew from `l` and knows all names in the tokens. -/
structure Scan.Known (l : Lexicon) (x : Scan) : Prop where
  sound : x.lexicon.Sound
  grows : l.Grows x.lexicon
  names : ∀ t ∈ x.tokens, t.kind = .identifier → t.lexeme ∈ x.lexicon.interned

namespace Scan

/-- What a piece contributes is known if its names are, and the rest keeps what it knows. -/
theorem Known.prepend {l l₁ : Lexicon} {x : Scan} {reading : Reading} (hx : x.Known l₁)
    (hgrows : l.Grows l₁) (hnames : ∀ t, reading = .token t → t.kind = .identifier →
      t.lexeme ∈ l₁.interned) : (Scan.prepend reading x).Known l := by
  cases reading with
  | skipped | error => exact ⟨hx.sound, hgrows.trans hx.grows, hx.names⟩
  | token t =>
      refine ⟨hx.sound, hgrows.trans hx.grows, ?_⟩
      rintro t' (_ | ⟨_, ht'⟩) hkind
      · exact hx.grows.interned (hnames t rfl hkind)
      · exact hx.names t' ht' hkind

/-- All symbols in a scan were issued by its lexicon. The induction is on the source, piece by
piece. -/
theorem ofScanner_known (source : List Char) (line : Nat) {l : Lexicon} (h : l.Sound) :
    (ofScanner ⟨source, line, l⟩).Known l := by
  induction source using Piece.source_induction generalizing line l with
  | nil =>
      rw [ofScanner_nil]
      refine ⟨h.intern "", Lexicon.intern_grows l "", fun t ht hkind => ?_⟩
      cases List.mem_singleton.1 ht
      cases hkind
  | cons c source ih =>
      rw [ofScanner_cons]
      let ending := line + Piece.newlines (Piece.first c source).1.spelling
      -- The rest starts with the lexicon that the piece leaves behind.
      have hlater := ih ending (Scanner.read_sound h ending (Piece.first c source).1)
      exact hlater.prepend (Scanner.read_grows l _ _) fun t ht => Scanner.read_mem ht

/-- Two scans that look the same behind a piece look the same with it. -/
theorem prepend_bare {reading reading' : Reading} {x x' : Scan}
    (hreading : reading.bare = reading'.bare)
    (htokens : x.tokens.map Token.bare = x'.tokens.map Token.bare)
    (herrors : x.errors = x'.errors) :
    (prepend reading x).tokens.map Token.bare = (prepend reading' x').tokens.map Token.bare ∧
      (prepend reading x).errors = (prepend reading' x').errors := by
  -- Readings that show the same are of the same sort, so three cases are left.
  cases reading with
  | skipped =>
      cases reading' with
      | skipped => exact ⟨htokens, herrors⟩
      | token | error => cases hreading
  | token t =>
      cases reading' with
      | token t' =>
          have hbare : t.bare = t'.bare := Reading.token.inj hreading
          refine ⟨?_, herrors⟩
          simp only [prepend, List.map_cons, htokens, hbare]
      | skipped | error => cases hreading
  | error e =>
      cases reading' with
      | error e' =>
          have he : e = e' := Reading.error.inj hreading
          refine ⟨htokens, ?_⟩
          simp only [prepend, herrors, he]
      | skipped | token => cases hreading

/-- Two lexicons in order give the same scan, but for the numbers of symbols. -/
theorem ofScanner_bare (source : List Char) (line : Nat) {l l' : Lexicon} (h : l.Sound)
    (h' : l'.Sound) :
    (ofScanner ⟨source, line, l⟩).tokens.map Token.bare =
        (ofScanner ⟨source, line, l'⟩).tokens.map Token.bare ∧
      (ofScanner ⟨source, line, l⟩).errors = (ofScanner ⟨source, line, l'⟩).errors := by
  induction source using Piece.source_induction generalizing line l l' with
  | nil =>
      rw [ofScanner_nil, ofScanner_nil]
      simp [Token.bare, Token.name, Lexicon.name_intern]
  | cons c source ih =>
      rw [ofScanner_cons, ofScanner_cons]
      let ending := line + Piece.newlines (Piece.first c source).1.spelling
      obtain ⟨htokens, herrors⟩ :=
        ih ending (Scanner.read_sound h ending (Piece.first c source).1)
          (Scanner.read_sound h' ending (Piece.first c source).1)
      exact prepend_bare (Scanner.read_bare h h' _ _) htokens herrors

end Scan

/-- The same for whole sources. -/
theorem scan_known (source : String) {l : Lexicon} (h : l.Sound) : (scan source l).Known l :=
  Scan.ofScanner_known source.toList 1 h

/-- Which symbols were issued before makes no difference to what is seen of a scan. -/
theorem scan_bare (source : String) {l l' : Lexicon} (h : l.Sound) (h' : l'.Sound) :
    (scan source l).tokens.map Token.bare = (scan source l').tokens.map Token.bare ∧
      (scan source l).errors = (scan source l').errors :=
  Scan.ofScanner_bare source.toList 1 h h'

end Scriptlet
