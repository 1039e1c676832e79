import Scriptlet.Proofs.Lexical.Segments
import Scriptlet.Number.Text

/-!
# `Scriptlet.Proofs.Lexical.Lexeme`: the longest token at a place

`Kind.Spells` says how tokens are written: marks and reserved words in one way, names, numbers
and texts in quotes in many. At every place of a source the scanner takes the longest text that
is written so.

* `Number.read?_digits`: the digits of a number token always name a number.
* `Scanner.written_of_read`: what is read as a token is written as its kind is.
* `Kind.Spells.length_le_first`: nothing longer could have been taken.
* `longest_taken`: one step of the scanner, at any place.
-/

set_option autoImplicit false

namespace Scriptlet

/-! ### Numbers in digits -/

namespace Number

/-- A digit has no other case. -/
theorem toLower_digit {c : Char} (h : c.isDigit = true) : c.toLower = c := by
  simp only [Char.isDigit, Bool.and_eq_true, decide_eq_true_eq] at h
  unfold Char.toLower
  refine dif_neg ?_
  rintro ⟨hlow, -⟩
  exact absurd (UInt32.le_trans hlow h.2) (by decide)

/-- A digit is none of the characters that are no digits. -/
theorem ne_of_isDigit {c d : Char} (hc : c.isDigit = true) (hd : d.isDigit = false) : c ≠ d := by
  rintro rfl
  rw [hc] at hd
  cases hd

/-- A text that starts with a digit is no word. -/
theorem readMagnitude?_digit {c : Char} (h : c.isDigit = true) (text : List Char) :
    readMagnitude? (c :: text) = (readDecimal? (c :: text)).map Decimal.magnitude := by
  have hi : c ≠ 'i' := ne_of_isDigit h (by decide)
  have hn : c ≠ 'n' := ne_of_isDigit h (by decide)
  simp [readMagnitude?, toLower_digit h, hi, hn]

/-- A text that starts with a digit has no sign and is no word. -/
theorem read?_digit {c : Char} (h : c.isDigit = true) (text : List Char) :
    read? (c :: text) =
      (readDecimal? (c :: text)).map fun d => Binary64.toFloat false d.magnitude := by
  unfold read?
  split
  case h_1 heq => exact absurd (List.cons.inj heq).1 (ne_of_isDigit h (by decide))
  case h_2 heq => exact absurd (List.cons.inj heq).1 (ne_of_isDigit h (by decide))
  case h_3 =>
    rw [readMagnitude?_digit h, Option.map_map]
    rfl

/-- Digits around a point, or digits without one, are read as the decimal they are. -/
theorem readDecimal?_digits {whole fraction : List Char} (hwhole : whole ≠ [])
    (hdigits : ∀ c ∈ whole ++ fraction, c.isDigit = true) :
    readDecimal? (Piece.number whole fraction).spelling = some (.ofDigits whole fraction) := by
  rw [List.forall_mem_append] at hdigits
  have hend : Piece.Stops Char.isDigit [] := Piece.stops_nil _
  unfold readDecimal?
  cases fraction with
  | nil =>
      have htake := Piece.takeWhile_span hdigits.1 hend
      have hdrop := Piece.dropWhile_span hdigits.1 hend
      rw [List.append_nil] at htake hdrop
      simp [Piece.spelling, htake, hdrop, hwhole, readExponent?]
  | cons d more =>
      have hpoint : Piece.Stops Char.isDigit ('.' :: d :: more) := Piece.stops_cons.2 (by decide)
      have htake := Piece.takeWhile_span hdigits.2 hend
      have hdrop := Piece.dropWhile_span hdigits.2 hend
      rw [List.append_nil] at htake hdrop
      simp [Piece.spelling, Piece.takeWhile_span hdigits.1 hpoint,
        Piece.dropWhile_span hdigits.1 hpoint, htake, hdrop, readExponent?]

/-- So such a text names a number, and no other one than the scanner computes. -/
theorem read?_digits {whole fraction : List Char} (hwhole : whole ≠ [])
    (hdigits : ∀ c ∈ whole ++ fraction, c.isDigit = true) :
    read? (Piece.number whole fraction).spelling =
      some (Binary64.toFloat false (Decimal.ofDigits whole fraction).magnitude) := by
  have hdecimal := readDecimal?_digits hwhole hdigits
  obtain ⟨c, digits, rfl⟩ := List.exists_cons_of_ne_nil hwhole
  obtain ⟨more, hmore⟩ : ∃ more, (Piece.number (c :: digits) fraction).spelling = c :: more := by
    cases fraction <;> exact ⟨_, rfl⟩
  rw [hmore] at hdecimal ⊢
  rw [read?_digit (hdigits c (by simp)), hdecimal, Option.map_some]

end Number

/-! ### How tokens are written -/

/-- The texts that stand for a token of this kind. -/
inductive Kind.Spells : Kind → List Char → Prop where
  | mark {m : Mark} : Spells (.mark m) m.text.toList
  | keyword {k : Keyword} : Spells (.keyword k) k.text.toList
  /-- A name is a word that is not reserved. -/
  | name {c : Char} {letters : List Char} : Piece.isWordStart c = true →
      (∀ x ∈ letters, Piece.isWordPart x = true) →
      (∀ k : Keyword, k.text.toList ≠ c :: letters) → Spells .identifier (c :: letters)
  | whole {digits : List Char} : digits ≠ [] → (∀ c ∈ digits, c.isDigit = true) →
      Spells .number digits
  | fraction {digits more : List Char} : digits ≠ [] → more ≠ [] →
      (∀ c ∈ digits ++ more, c.isDigit = true) → Spells .number (digits ++ '.' :: more)
  | string {body : List Char} : '"' ∉ body → Spells .string ('"' :: (body ++ ['"']))

/-- What a token carries that is written so: the number that the digits name, or what stands
between the quotes. -/
def Kind.constant? (kind : Kind) (text : List Char) : Option Literal :=
  match kind with
  | .number => (Number.read? text).map .number
  | .string => some (.string (String.ofList text.tail.dropLast))
  | _ => none

/-- A token as it is written in a source. -/
structure Token.Written (t : Token) : Prop where
  spelling : t.kind.Spells t.name.toList
  constant : t.literal = t.kind.constant? t.name.toList

/-- The letters of a reserved word make a word. -/
theorem Keyword.letters (k : Keyword) : ∃ c letters, k.text.toList = c :: letters ∧
    Piece.isWordStart c = true ∧ ∀ x ∈ letters, Piece.isWordPart x = true := by
  cases k <;> exact ⟨_, _, rfl, by decide, List.all_eq_true.1 (by decide)⟩

namespace Kind

/-- The characters with which a token of this kind may start. -/
def mayStart (kind : Kind) (c : Char) : Bool :=
  match kind with
  | .mark _ => (Mark.ofChar? c).isSome
  | .keyword _ | .identifier => Piece.isWordStart c
  | .number => c.isDigit
  | .string => c == '"'
  | .eof => false

/-- Digits, and digits with a point between them, spell a number. -/
theorem Spells.number {whole fraction : List Char} (hwhole : whole ≠ [])
    (hdigits : ∀ c ∈ whole ++ fraction, c.isDigit = true) :
    Spells .number (Piece.number whole fraction).spelling := by
  cases fraction with
  | nil => exact .whole hwhole (by simpa [Piece.spelling] using hdigits)
  | cons d more => exact .fraction hwhole (by simp) hdigits

/-- The two ways to write a number, in one. -/
theorem Spells.exists_number {text : List Char} (h : Spells .number text) :
    ∃ whole fraction, text = (Piece.number whole fraction).spelling ∧ whole ≠ [] ∧
      ∀ c ∈ whole ++ fraction, c.isDigit = true := by
  cases h with
  | whole hdigits hall => exact ⟨text, [], rfl, hdigits, by simpa using hall⟩
  | @fraction digits more hdigits hmore hall =>
      refine ⟨digits, more, ?_, hdigits, hall⟩
      cases more with
      | nil => exact absurd rfl hmore
      | cons d more => rfl

/-- A text that stands for a token is not empty, and its first character tells what kinds it may be
of. -/
theorem Spells.head {kind : Kind} {text : List Char} (h : kind.Spells text) :
    ∃ c more, text = c :: more ∧ kind.mayStart c = true := by
  cases h with
  | @mark m =>
      obtain ⟨c, htext, hm⟩ | ⟨c, shorter, htext, hm, -⟩ := Piece.mark_cases m
      · exact ⟨c, [], htext, by simp [mayStart, hm]⟩
      · exact ⟨c, ['='], htext, by simp [mayStart, hm]⟩
  | @keyword k =>
      obtain ⟨c, letters, htext, hc, -⟩ := k.letters
      exact ⟨c, letters, htext, hc⟩
  | name hc => exact ⟨_, _, rfl, hc⟩
  | whole hdigits hall =>
      obtain ⟨c, digits, rfl⟩ := List.exists_cons_of_ne_nil hdigits
      exact ⟨c, digits, rfl, hall c (by simp)⟩
  | fraction hdigits _ hall =>
      obtain ⟨c, digits, rfl⟩ := List.exists_cons_of_ne_nil hdigits
      exact ⟨c, _, rfl, hall c (by simp)⟩
  | string => exact ⟨_, _, rfl, rfl⟩

end Kind

namespace Piece

/-- Characters that pass the test are those that are not this one. -/
theorem forall_bne_iff {d : Char} {body : List Char} :
    (∀ c ∈ body, (c != d) = true) ↔ d ∉ body := by
  constructor
  · intro h hd
    exact absurd (h d hd) (by simp)
  · intro h c hc
    rw [bne_iff_ne]
    rintro rfl
    exact h hc

/-- What is cut off is never empty, so that the scanner goes on. -/
theorem Cut.spelling_ne_nil {piece : Piece} {rest : List Char} (h : Cut piece rest) :
    piece.spelling ≠ [] := by
  cases h with
  | @mark m => cases m <;> decide
  | _ => simp [spelling]

/-- A number that is cut off has a digit at least, and is made of digits. -/
theorem Cut.digits {whole fraction rest : List Char} (h : Cut (.number whole fraction) rest) :
    whole ≠ [] ∧ ∀ c ∈ whole ++ fraction, c.isDigit = true := by
  cases h with
  | whole hc hdigits => exact ⟨List.cons_ne_nil _ _, by simpa using ⟨hc, hdigits⟩⟩
  | fraction hc hdigits hd hmore =>
      refine ⟨List.cons_ne_nil _ _, ?_⟩
      rw [List.forall_mem_append, List.forall_mem_cons, List.forall_mem_cons]
      exact ⟨⟨hc, hdigits⟩, hd, hmore⟩

/-- Signs are not made of letters. -/
theorem ofChar?_of_wordStart {c : Char} (h : isWordStart c = true) : Mark.ofChar? c = none := by
  unfold Mark.ofChar?
  split <;> first | rfl | exact absurd h (by decide)

/-- Every word is a token, a reserved one or a name. -/
theorem exists_spells_word {c : Char} {letters : List Char} (hc : isWordStart c = true)
    (hletters : ∀ x ∈ letters, isWordPart x = true) :
    ∃ kind : Kind, kind.Spells (c :: letters) := by
  by_cases hword : ∃ k : Keyword, k.text.toList = c :: letters
  · obtain ⟨k, hk⟩ := hword
    exact ⟨.keyword k, hk ▸ .keyword⟩
  · rw [not_exists] at hword
    exact ⟨.identifier, .name hc hletters hword⟩

end Piece

namespace Kind

/-- What starts like a word is one. -/
theorem Spells.word_cases {kind : Kind} {c : Char} {letters : List Char}
    (h : kind.Spells (c :: letters)) (hc : Piece.isWordStart c = true) :
    kind = .identifier ∨ ∃ k, kind = .keyword k := by
  obtain ⟨d, more, htext, hstart⟩ := h.head
  obtain ⟨rfl, -⟩ := List.cons.inj htext
  cases kind with
  | identifier => exact .inl rfl
  | keyword k => exact .inr ⟨k, rfl⟩
  | mark m => simp [mayStart, Piece.ofChar?_of_wordStart hc] at hstart
  | number =>
      rw [mayStart, Piece.isDigit_of_wordStart hc] at hstart
      cases hstart
  | string =>
      rw [eq_of_beq hstart] at hc
      exact absurd hc (by decide)
  | eof => cases hstart

/-- A token that spells a reserved word is this word. -/
theorem Spells.keyword_iff {kind : Kind} {text : List Char} (h : kind.Spells text)
    (k : Keyword) : kind = .keyword k ↔ text = k.text.toList := by
  constructor
  · rintro rfl
    cases h
    rfl
  · intro htext
    obtain ⟨c, letters, hletters, hc, -⟩ := k.letters
    have hword : kind.Spells (c :: letters) := hletters ▸ htext ▸ h
    obtain rfl | ⟨k', rfl⟩ := hword.word_cases hc
    · cases h with
      | name _ _ hfree => exact absurd htext.symm (hfree k)
    · cases h
      rw [Keyword.eq_of_text (String.toList_inj.1 htext)]

end Kind

/-- A token with such a spelling and such a constant is written so. -/
theorem Token.written_of_name {t : Token} {text : List Char} (hname : t.name = String.ofList text)
    (hspells : t.kind.Spells text) (hconstant : t.literal = t.kind.constant? text) :
    t.name.toList = text ∧ t.Written := by
  have htext : t.name.toList = text := by rw [hname, String.toList_ofList]
  exact ⟨htext, htext.symm ▸ hspells, htext.symm ▸ hconstant⟩

namespace Scanner

/-- A word is read as the reserved word that it spells, and as a name if it spells none. It
carries nothing in either case. -/
theorem kind_word {l : Lexicon} (hl : l.Sound) (line : Nat) {c : Char} {letters : List Char}
    (hc : Piece.isWordStart c = true) (hletters : ∀ x ∈ letters, Piece.isWordPart x = true) :
    (wordToken l line (c :: letters)).1.kind.Spells (c :: letters) ∧
      (wordToken l line (c :: letters)).1.kind.constant? (c :: letters) = none := by
  have hkeyword := fun k => Lexicon.Sound.keyword?_iff (hl.intern (String.ofList (c :: letters)))
    (Lexicon.mem_intern l _) (k := k)
  rw [Lexicon.name_intern] at hkeyword
  rw [kind_wordToken]
  dsimp only
  generalize Lexicon.keyword? _ _ = word at hkeyword
  cases word with
  | some k =>
      have htext : k.text.toList = c :: letters := by
        rw [(hkeyword k).1 rfl, String.toList_ofList]
      exact ⟨htext ▸ .keyword, rfl⟩
  | none =>
      refine ⟨.name hc hletters fun k hk => ?_, rfl⟩
      have hfound := (hkeyword k).2 (by rw [← hk, String.ofList_toList])
      cases hfound

/-- What is read as a token is written as its kind is, and is on the line where it ends. -/
theorem written_of_read {piece : Piece} {rest : List Char} (hcut : Piece.Cut piece rest)
    {l : Lexicon} (hl : l.Sound) {line : Nat} {t : Token}
    (h : (read l line piece).1 = .token t) :
    (t.name.toList = piece.spelling ∧ t.Written) ∧ t.line = line := by
  cases piece with
  | newline | blank | comment | stray | unclosed => cases h
  | mark m =>
      cases h
      exact ⟨Token.written_of_name (Lexicon.name_intern l _) .mark rfl, rfl⟩
  | word letters =>
      cases h
      cases hcut with
      | word hc hletters =>
          obtain ⟨hspells, hnone⟩ := kind_word hl line hc hletters
          exact ⟨Token.written_of_name (Lexicon.name_intern l _) hspells hnone.symm, rfl⟩
  | number whole fraction =>
      cases h
      obtain ⟨hwhole, hdigits⟩ := hcut.digits
      refine ⟨Token.written_of_name rfl (.number hwhole hdigits) ?_, rfl⟩
      -- The scanner computes the number itself, and it is the one that the digits name.
      rw [Kind.constant?, Number.read?_digits hwhole hdigits]
      rfl
  | quoted body =>
      cases h
      cases hcut with
      | quoted hbody =>
          refine ⟨Token.written_of_name rfl (.string (Piece.forall_bne_iff.1 hbody)) ?_, rfl⟩
          simp [Kind.constant?, Piece.spelling]

end Scanner

/-! ### The longest match -/

namespace Piece

/-- All letters of a word are taken, and perhaps more. -/
theorem length_firstWord_le {c : Char} {letters : List Char}
    (hletters : ∀ x ∈ letters, isWordPart x = true) (later : List Char) :
    (c :: letters).length ≤ (firstWord c (letters ++ later)).1.spelling.length := by
  simp [firstWord, spelling, List.takeWhile_append_of_pos hletters]

/-- All digits are taken, and perhaps more. -/
theorem length_firstNumber_le {c : Char} {digits : List Char}
    (hdigits : ∀ x ∈ digits, x.isDigit = true) (later : List Char) :
    (c :: digits).length ≤ (firstNumber c (digits ++ later)).1.spelling.length := by
  unfold firstNumber
  rw [List.takeWhile_append_of_pos hdigits]
  split
  · split
    · simp [spelling]
    · simp [spelling]
  · simp [spelling]

/-- Digits behind a point are taken with the point. -/
theorem length_firstNumber_fraction_le {c d : Char} {digits more : List Char}
    (hdigits : ∀ x ∈ digits, x.isDigit = true) (hd : d.isDigit = true)
    (hmore : ∀ x ∈ more, x.isDigit = true) (later : List Char) :
    (c :: digits ++ '.' :: d :: more).length ≤
      (firstNumber c (digits ++ '.' :: d :: (more ++ later))).1.spelling.length := by
  have hpoint : Stops Char.isDigit ('.' :: d :: (more ++ later)) := stops_cons.2 (by decide)
  unfold firstNumber
  rw [takeWhile_span hdigits hpoint, dropWhile_span hdigits hpoint]
  simp [hd, spelling, List.takeWhile_append_of_pos hmore]

end Piece

/-- Nothing that is written as a token is longer than the piece that is cut off. -/
theorem Kind.Spells.length_le_first {kind : Kind} {other later : List Char} {c : Char}
    {source : List Char} (h : kind.Spells other) (hsource : other ++ later = c :: source) :
    other.length ≤ (Piece.first c source).1.spelling.length := by
  cases h with
  -- The piece is cut off by its first character. What is written there has the same one, so it is
  -- of the same sort.
  | @mark m =>
      obtain ⟨c', htext, hm⟩ | ⟨c', shorter, htext, hm, hlonger⟩ := Piece.mark_cases m
      · rw [htext]
        exact List.length_pos_iff.2 (Piece.first_cut c source).spelling_ne_nil
      · rw [htext] at hsource ⊢
        obtain ⟨rfl, rfl⟩ := List.cons.inj hsource
        rw [Piece.first_sign hm (by rintro rfl; cases hlonger)]
        simp [Piece.firstMark, hlonger, Piece.spelling, htext]
  | @keyword k =>
      obtain ⟨c', letters, htext, hc, hletters⟩ := k.letters
      rw [htext] at hsource ⊢
      obtain ⟨rfl, rfl⟩ := List.cons.inj hsource
      rw [Piece.first_word hc]
      exact Piece.length_firstWord_le hletters later
  | @name c' letters hc hletters =>
      obtain ⟨rfl, rfl⟩ := List.cons.inj hsource
      rw [Piece.first_word hc]
      exact Piece.length_firstWord_le hletters later
  | whole hdigits hall =>
      obtain ⟨c', digits, rfl⟩ := List.exists_cons_of_ne_nil hdigits
      obtain ⟨rfl, rfl⟩ := List.cons.inj hsource
      rw [List.forall_mem_cons] at hall
      rw [Piece.first_digit hall.1]
      exact Piece.length_firstNumber_le hall.2 later
  | fraction hdigits hmore hall =>
      obtain ⟨c', digits, rfl⟩ := List.exists_cons_of_ne_nil hdigits
      obtain ⟨d, more, rfl⟩ := List.exists_cons_of_ne_nil hmore
      simp only [List.cons_append, List.append_assoc] at hsource
      obtain ⟨rfl, rfl⟩ := List.cons.inj hsource
      simp only [List.cons_append, List.forall_mem_cons, List.forall_mem_append] at hall
      obtain ⟨hc, hdigits, hd, hmore⟩ := hall
      rw [Piece.first_digit hc]
      exact Piece.length_firstNumber_fraction_le hdigits hd hmore later
  | @string body hbody =>
      simp only [List.cons_append, List.append_assoc, List.nil_append] at hsource
      obtain ⟨rfl, rfl⟩ := List.cons.inj hsource
      have hcut : Piece.Cut (.quoted body) later := .quoted (Piece.forall_bne_iff.2 hbody)
      rw [hcut.first_eq (by simp [Piece.spelling])]
      simp [Piece.spelling]

/-! ### One step -/

/-- A token, a blank or a comment may start a source like this. -/
def Begins (source : List Char) : Prop :=
  (∃ (kind : Kind) (text : List Char), kind.Spells text ∧ text <+: source) ∨
    (∃ c ∈ [' ', '\t', '\r', '\n'], [c] <+: source) ∨ ['/', '/'] <+: source

/-- The token stands at the start of the source, in front of the rest, and all that may stand
there as a token is not longer. -/
structure Token.Longest (source rest : List Char) (t : Token) : Prop where
  text : t.name.toList ++ rest = source
  spelling : t.kind.Spells t.name.toList
  longest {kind : Kind} {other : List Char} : kind.Spells other → other <+: source →
    other.length ≤ t.name.toList.length
  /-- Reserved words are the tokens that are spelled like them. -/
  keyword (k : Keyword) : t.kind = .keyword k ↔ t.name = k.text
  number : t.kind = .number →
    ∃ x, Number.read? t.name.toList = some x ∧ t.literal = some (.number x)

/-- A token that is written as the piece that was cut off is the longest one at this place. -/
theorem Token.Written.longest {t : Token} (h : t.Written) {c : Char} {source rest : List Char}
    (htext : t.name.toList = (Piece.first c source).1.spelling)
    (hrest : (Piece.first c source).2 = rest) : t.Longest (c :: source) rest where
  text := by rw [htext, ← hrest, Piece.spelling_append_rest]
  spelling := h.spelling
  longest := by
    rintro kind other hother ⟨later, hlater⟩
    rw [htext]
    exact hother.length_le_first hlater
  keyword k := by rw [h.spelling.keyword_iff, String.toList_inj]
  number hkind := by
    have hspells := h.spelling
    have hconstant := h.constant
    rw [hkind] at hspells hconstant
    obtain ⟨whole, fraction, hnumber, hwhole, hdigits⟩ := hspells.exists_number
    refine ⟨_, hnumber ▸ Number.read?_digits hwhole hdigits, ?_⟩
    rw [hconstant, hnumber, Kind.constant?, Number.read?_digits hwhole hdigits]
    rfl

namespace Piece

/-- The characters that are skipped are these four. -/
theorem isGap_iff {c : Char} : isGap c = true ∨ c = '\n' ↔ c ∈ [' ', '\t', '\r', '\n'] := by
  simp [isGap, or_assoc]

/-- With a character that starts no piece, nothing begins. -/
theorem StartsNothing.not_begins {c : Char} (h : StartsNothing c) (source : List Char) :
    ¬ Begins (c :: source) := by
  rintro (⟨kind, text, hspells, later, hlater⟩ | ⟨d, hd, later, hlater⟩ | ⟨later, hlater⟩)
  · obtain ⟨d, more, rfl, hstart⟩ := hspells.head
    obtain ⟨rfl, -⟩ := List.cons.inj hlater
    cases kind <;> simp [Kind.mayStart, h.mark, h.word, h.digit, h.quote] at hstart
  · obtain ⟨rfl, -⟩ := List.cons.inj hlater
    rcases isGap_iff.2 hd with hgap | hnewline
    · rw [h.gap] at hgap
      cases hgap
    · exact h.newline hnewline
  · obtain ⟨rfl, -⟩ := List.cons.inj hlater
    cases h.mark

/-- With a quote only a text in quotes begins, and it needs a second one. -/
theorem not_begins_unclosed {body : List Char} (h : '"' ∉ body) : ¬ Begins ('"' :: body) := by
  rintro (⟨kind, text, hspells, later, hlater⟩ | ⟨d, hd, later, hlater⟩ | ⟨later, hlater⟩)
  · obtain ⟨d, more, rfl, hstart⟩ := hspells.head
    obtain ⟨rfl, rfl⟩ := List.cons.inj hlater
    cases kind with
    | string =>
        cases hspells
        simp at h
    | _ => cases hstart
  · obtain ⟨rfl, -⟩ := List.cons.inj hlater
    exact absurd hd (by decide)
  · cases hlater

/-- A piece begins the source, unless it is reported. -/
theorem Cut.begins {piece : Piece} {rest : List Char} (h : Cut piece rest) :
    Begins (piece.spelling ++ rest) ∨ (∃ c, piece = .stray c ∧ StartsNothing c) ∨
      ∃ body, piece = .unclosed body ∧ rest = [] ∧ '"' ∉ body := by
  have htoken : ∀ {kind : Kind}, kind.Spells piece.spelling →
      Begins (piece.spelling ++ rest) :=
    fun hspells => .inl ⟨_, _, hspells, List.prefix_append _ _⟩
  cases piece with
  | newline => exact .inl (.inr (.inl ⟨'\n', by decide, List.prefix_append _ _⟩))
  | blank c =>
      cases h with
      | blank hgap =>
          exact .inl (.inr (.inl ⟨c, isGap_iff.1 (.inl hgap), List.prefix_append _ _⟩))
  | comment body => exact .inl (.inr (.inr ⟨body ++ rest, rfl⟩))
  | mark m => exact .inl (htoken .mark)
  | word letters =>
      cases h with
      | word hc hletters =>
          obtain ⟨kind, hspells⟩ := exists_spells_word hc hletters
          exact .inl (htoken hspells)
  | number whole fraction => exact .inl (htoken (.number h.digits.1 h.digits.2))
  | quoted body =>
      cases h with
      | quoted hbody => exact .inl (htoken (.string (forall_bne_iff.1 hbody)))
  | stray c =>
      cases h with
      | stray hc => exact .inr (.inl ⟨c, rfl, hc⟩)
  | unclosed body =>
      cases h with
      | unclosed hbody => exact .inr (.inr ⟨body, rfl, rfl, forall_bne_iff.1 hbody⟩)

end Piece

namespace Scanner

section Step

variable {piece : Piece} {c : Char} {text rest : List Char} (hcut : Piece.Cut piece rest)
  (hsource : piece.spelling ++ rest = c :: text) (l : Lexicon) (line : Nat)

include hcut hsource

/-- Blanks and comments are skipped, and only they are. -/
theorem read_skipped_iff : (read l line piece).1 = .skipped ↔
    c ∈ [' ', '\t', '\r', '\n'] ∧ rest = text ∨
      ['/', '/'] <+: c :: text ∧ rest = (c :: text).dropWhile (· != '\n') := by
  constructor
  · intro h
    cases hcut with
    | newline =>
        cases hsource
        exact .inl ⟨by decide, rfl⟩
    | blank hgap =>
        cases hsource
        exact .inl ⟨Piece.isGap_iff.1 (.inl hgap), rfl⟩
    | @comment body _ hbody hrest =>
        have hline : ∀ x ∈ '/' :: '/' :: body, (x != '\n') = true := by simpa using hbody
        refine .inr ⟨⟨body ++ rest, hsource⟩, ?_⟩
        rw [← hsource]
        exact (Piece.dropWhile_span hline hrest).symm
    | _ => cases h
  · have hfirst := hcut.first_eq hsource
    rintro (⟨hblank, -⟩ | ⟨⟨later, hlater⟩, -⟩)
    · -- No other piece starts with a blank.
      rcases Piece.isGap_iff.2 hblank with hgap | rfl
      · have hcut' : Piece.Cut (.blank c) text := .blank hgap
        cases hfirst.symm.trans (hcut'.first_eq rfl)
        rfl
      · cases hfirst
        rfl
    · cases hlater
      cases hfirst
      rfl

/-- An error is reported exactly where nothing begins. -/
theorem read_error_iff :
    (∃ e, (read l line piece).1 = .error e) ↔ ¬ Begins (c :: text) := by
  rw [← hsource]
  constructor
  · rintro ⟨e, he⟩
    cases hcut with
    | stray hc => exact hc.not_begins rest
    | unclosed hbody =>
        rw [List.append_nil]
        exact Piece.not_begins_unclosed (Piece.forall_bne_iff.1 hbody)
    | _ => cases he
  · intro hnot
    rcases hcut.begins with hbegins | ⟨d, rfl, -⟩ | ⟨body, rfl, -⟩
    · exact absurd hbegins hnot
    · exact ⟨_, rfl⟩
    · exact ⟨_, rfl⟩

/-- A character is unexpected if nothing begins with it, whatever follows. -/
theorem read_unexpected_iff :
    (read l line piece).1 = .error (.ofLine line (.unexpectedChar c)) ↔
      ∀ more, ¬ Begins (c :: more) := by
  constructor
  · intro h
    cases hcut with
    | stray hc =>
        cases hsource
        exact hc.not_begins
    | _ => cases h
  · intro hnone
    rcases hcut.begins with hbegins | ⟨d, rfl, -⟩ | ⟨body, rfl, -⟩
    · exact absurd (hsource ▸ hbegins) (hnone text)
    · cases hsource
      rfl
    · -- With a quote a text may begin, the empty one for example.
      cases hsource
      exact absurd (.inl ⟨.string, _, .string List.not_mem_nil, List.prefix_rfl⟩) (hnone ['"'])

/-- A quote is reported exactly if there is no second one. -/
theorem read_unterminated_iff :
    (read l line piece).1 = .error (.ofLine line .unterminatedString) ↔
      c = '"' ∧ '"' ∉ text := by
  constructor
  · intro h
    cases hcut with
    | unclosed hbody =>
        rw [List.append_nil] at hsource
        cases hsource
        exact ⟨rfl, Piece.forall_bne_iff.1 hbody⟩
    | _ => cases h
  · rintro ⟨rfl, hquote⟩
    have hunclosed : Piece.Cut (.unclosed text) [] := .unclosed (Piece.forall_bne_iff.2 hquote)
    cases (hcut.first_eq hsource).symm.trans (hunclosed.first_eq (List.append_nil _))
    rfl

end Step

end Scanner

/-- **The scanner takes the longest token.** At any place where a source goes on, whatever
symbols were issued before, one step of the scanner skips a blank or a comment, or it gives a
token, or it reports an error.

* Two slashes are a comment and never a slash, and it goes up to the end of its line.
* A token is the longest text at this place that is written as a token. It is a reserved word
  exactly if it is spelled like one. If it is a number, then its digits name one, and it carries
  this number.
* An error is reported exactly if no token, blank or comment begins here. The character is
  unexpected if none begins with it, whatever follows, and a quote is unterminated if there is
  no other quote behind it. -/
theorem longest_taken {l : Lexicon} (hl : l.Sound) (c : Char) (text : List Char) (line : Nat) :
    ∃ (reading : Reading) (s : Scanner),
      Scanner.step ⟨c :: text, line, l⟩ = some (reading, s) ∧
      (Scanner.next ⟨c :: text, line, l⟩ =
        match reading.result? with
        | none => s.next
        | some result => (result, s)) ∧
      (reading = .skipped ↔ c ∈ [' ', '\t', '\r', '\n'] ∧ s.rest = text ∨
        ['/', '/'] <+: c :: text ∧ s.rest = (c :: text).dropWhile (· != '\n')) ∧
      (∀ t, reading = .token t → t.Longest (c :: text) s.rest) ∧
      ((∃ e, reading = .error e) ↔ ¬ Begins (c :: text)) ∧
      (reading = .error (.ofLine s.line (.unexpectedChar c)) ↔ ∀ more, ¬ Begins (c :: more)) ∧
      (reading = .error (.ofLine s.line .unterminatedString) ↔ c = '"' ∧ '"' ∉ text) := by
  have hstep := Scanner.step_cons c text line l
  have hcut := Piece.first_cut c text
  have hsource := Piece.spelling_append_rest c text
  refine ⟨_, _, hstep, Scanner.next_of_step hstep, Scanner.read_skipped_iff hcut hsource _ _, ?_,
    Scanner.read_error_iff hcut hsource _ _, Scanner.read_unexpected_iff hcut hsource _ _,
    Scanner.read_unterminated_iff hcut hsource _ _⟩
  intro t ht
  obtain ⟨⟨htext, hwritten⟩, -⟩ := Scanner.written_of_read hcut hl ht
  exact hwritten.longest htext rfl

/-- A point has digits behind it once, and the second one is left. -/
theorem longest_taken_decimal :
    ∃ t s, Scanner.step ⟨['1', '.', '2', '.', '3'], 1, .new 0⟩ = some (.token t, s) ∧
      t.name = "1.2" ∧ s.rest = ['.', '3'] ∧ t.Longest ['1', '.', '2', '.', '3'] ['.', '3'] := by
  have hrun : (Scanner.step ⟨['1', '.', '2', '.', '3'], 1, .new 0⟩).map
      (fun x => (x.1.token?.map Token.name, x.2.rest)) = some (some "1.2", ['.', '3']) := by
    decide +kernel
  obtain ⟨reading, s, hstep, -, -, htoken, -⟩ :=
    longest_taken (Lexicon.sound_new 0) '1' ['.', '2', '.', '3'] 1
  rw [hstep, Option.map_some, Option.some_inj] at hrun
  obtain ⟨hname, hrest⟩ := Prod.mk.inj hrun
  cases reading with
  | token t => exact ⟨t, s, hstep, Option.some.inj hname, hrest, hrest ▸ htoken t rfl⟩
  | skipped | error => cases hname

end Scriptlet
