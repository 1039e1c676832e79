import Scriptlet.Proofs.Lexical.Join

/-!
# `Scriptlet.Proofs.Lexical.Cut`: where a piece ends

`Piece.Cut piece rest` says, without any scanner, that a piece may stand in front of the text
`rest`: it is made of the right characters, and nothing at the start of `rest` belongs to it.

`Piece.first_iff`: this is what the scanner goes by. It cuts a piece off a source and leaves a
rest exactly when the two make up the source and the piece may stand there. One direction says
what pieces a source can consist of, the other one how a text is read that was put together
from pieces.
-/

set_option autoImplicit false

namespace Scriptlet.Piece

/-- The text does not start with a character that the test accepts. -/
def Stops (test : Char → Bool) (text : List Char) : Prop := ∀ c ∈ text.head?, test c = false

/-- A text that is at its end stops everywhere. -/
theorem stops_nil (test : Char → Bool) : Stops test [] := nofun

/-- Otherwise the first character decides. -/
@[simp] theorem stops_cons {test : Char → Bool} {c : Char} {text : List Char} :
    Stops test (c :: text) ↔ test c = false := by
  simp [Stops]

/-- No piece starts with the character. -/
structure StartsNothing (c : Char) : Prop where
  newline : c ≠ '\n'
  gap : isGap c = false
  quote : c ≠ '"'
  digit : c.isDigit = false
  word : isWordStart c = false
  mark : Mark.ofChar? c = none

/-- The piece may stand in front of the text, and ends there. -/
inductive Cut : Piece → List Char → Prop where
  | newline {rest : List Char} : Cut .newline rest
  | blank {c : Char} {rest : List Char} : isGap c = true → Cut (.blank c) rest
  | comment {body rest : List Char} : (∀ c ∈ body, (c != '\n') = true) →
      Stops (· != '\n') rest → Cut (.comment body) rest
  /-- A mark that an equals sign makes longer is not in front of one, and a slash is not in
  front of another one. -/
  | mark {m : Mark} {rest : List Char} : (m.withEqual? ≠ none → Stops (· == '=') rest) →
      (m = .slash → Stops (· == '/') rest) → Cut (.mark m) rest
  | word {c : Char} {letters rest : List Char} : isWordStart c = true →
      (∀ x ∈ letters, isWordPart x = true) → Stops isWordPart rest →
      Cut (.word (c :: letters)) rest
  /-- A point behind a whole number has no digit behind it. -/
  | whole {c : Char} {digits rest : List Char} : c.isDigit = true →
      (∀ x ∈ digits, x.isDigit = true) → Stops Char.isDigit rest →
      (∀ later, rest = '.' :: later → Stops Char.isDigit later) →
      Cut (.number (c :: digits) []) rest
  | fraction {c d : Char} {digits more rest : List Char} : c.isDigit = true →
      (∀ x ∈ digits, x.isDigit = true) → d.isDigit = true →
      (∀ x ∈ more, x.isDigit = true) → Stops Char.isDigit rest →
      Cut (.number (c :: digits) (d :: more)) rest
  | quoted {body rest : List Char} : (∀ c ∈ body, (c != '"') = true) → Cut (.quoted body) rest
  | stray {c : Char} {rest : List Char} : StartsNothing c → Cut (.stray c) rest
  | unclosed {body : List Char} : (∀ c ∈ body, (c != '"') = true) → Cut (.unclosed body) []

/-! ### Characters that a test accepts, and the first one that it does not -/

section Span

variable {test : Char → Bool}

/-- What is left behind the characters that pass a test does not start with one that passes. -/
theorem stops_dropWhile (source : List Char) : Stops test (source.dropWhile test) := by
  intro c hc
  have hhead := List.head?_dropWhile_not test source
  rw [Option.mem_def.1 hc] at hhead
  exact hhead

/-- All that is taken passes the test. -/
theorem takeWhile_all (source : List Char) : ∀ c ∈ source.takeWhile test, test c = true :=
  fun _ hc => List.all_eq_true.1 List.all_takeWhile _ hc

/-- From a text in two parts, where only the first one passes, the first one is taken. -/
theorem takeWhile_span {body rest : List Char} (hbody : ∀ c ∈ body, test c = true)
    (hrest : Stops test rest) : (body ++ rest).takeWhile test = body := by
  rw [List.takeWhile_append_of_pos hbody]
  cases rest with
  | nil => simp
  | cons c rest => simp [stops_cons.1 hrest]

/-- The second one is left. -/
theorem dropWhile_span {body rest : List Char} (hbody : ∀ c ∈ body, test c = true)
    (hrest : Stops test rest) : (body ++ rest).dropWhile test = rest := by
  rw [List.dropWhile_append_of_pos hbody]
  cases rest with
  | nil => rfl
  | cons c rest => simp [stops_cons.1 hrest]

end Span

/-! ### What is cut off may stand there -/

/-- A comment goes up to the end of its line. -/
theorem firstComment_cut (source : List Char) :
    Cut (firstComment source).1 (firstComment source).2 :=
  .comment (takeWhile_all source) (stops_dropWhile source)

/-- A text goes up to the next quote. If there is none it is unclosed, and all that is left belongs
to it. -/
theorem firstQuoted_cut (source : List Char) :
    Cut (firstQuoted source).1 (firstQuoted source).2 := by
  unfold firstQuoted
  split
  · exact .quoted (takeWhile_all source)
  · exact .unclosed (takeWhile_all source)

/-- A word goes on while there are characters of words. -/
theorem firstWord_cut {c : Char} (hc : isWordStart c = true) (source : List Char) :
    Cut (firstWord c source).1 (firstWord c source).2 :=
  .word hc (takeWhile_all source) (stops_dropWhile source)

/-- A number takes all digits, and a point with more digits behind it. What stops it cannot go on
with it. -/
theorem firstNumber_cut {c : Char} (hc : c.isDigit = true) (source : List Char) :
    Cut (firstNumber c source).1 (firstNumber c source).2 := by
  have hstops : Stops Char.isDigit (source.dropWhile Char.isDigit) := stops_dropWhile source
  unfold firstNumber
  split
  case h_1 d rest hrest =>
    rw [hrest] at hstops
    split
    case isTrue hd =>
      exact .fraction hc (takeWhile_all source) hd (takeWhile_all rest) (stops_dropWhile rest)
    case isFalse hd =>
      -- The point has no digit behind it, so it is left for the rest.
      refine .whole hc (takeWhile_all source) hstops fun later hlater => ?_
      cases hlater
      simpa using hd
  case h_2 hpoint =>
    refine .whole hc (takeWhile_all source) hstops fun later hlater => ?_
    cases later with
    | nil => exact stops_nil _
    | cons d later => exact absurd hlater (hpoint d later)

/-- A mark takes an equals sign if it can. A slash is a mark only if no other one follows. -/
theorem firstMark_cut {m : Mark} {source : List Char} (hslash : m = .slash →
    Stops (· == '/') source) : Cut (firstMark m source).1 (firstMark m source).2 := by
  unfold firstMark
  split
  case h_1 longer rest hlonger =>
    -- A mark that ends with an equals sign is as long as marks get.
    refine .mark (fun h => ?_) (fun h => ?_)
    · cases m <;> cases hlonger <;> exact absurd rfl h
    · cases m <;> cases hlonger <;> cases h
  case h_2 hnone =>
    refine .mark (fun h c hc => ?_) hslash
    obtain ⟨longer, hlonger⟩ := Option.ne_none_iff_exists'.1 h
    obtain ⟨later, rfl⟩ := List.head?_eq_some_iff.1 hc
    rw [beq_eq_false_iff_ne]
    rintro rfl
    exact hnone longer later hlonger rfl

/-- The piece at the front of a source may stand there. -/
theorem first_cut (c : Char) (source : List Char) : Cut (first c source).1 (first c source).2 := by
  rw [first_eq]
  -- One test after the other. A character that passes none of them starts nothing.
  split
  case isTrue => exact .newline
  case isFalse hnewline =>
  split
  case isTrue hgap => exact .blank hgap
  case isFalse hgap =>
  split
  case isTrue => exact firstQuoted_cut source
  case isFalse hquote =>
  split
  case isTrue hdigit => exact firstNumber_cut hdigit source
  case isFalse hdigit =>
  split
  case isTrue hword => exact firstWord_cut hword source
  case isFalse hword =>
  split
  case isTrue => exact firstComment_cut _
  case isFalse hcomment =>
    unfold firstSign
    split
    case h_1 m hm =>
      refine firstMark_cut fun hslash => ?_
      -- Only a slash is read as one, and behind it there would be a comment.
      have hc : c = '/' := by
        have htext := text_of_ofChar? hm
        rw [hslash] at htext
        exact (List.cons.inj htext).1.symm
      cases source with
      | nil => exact stops_nil _
      | cons d source =>
          rw [stops_cons, beq_eq_false_iff_ne]
          rintro rfl
          exact hcomment ⟨hc, rfl⟩
    case h_2 hm =>
      exact .stray ⟨by simpa using hnewline, by simpa using hgap, by simpa using hquote,
        by simpa using hdigit, by simpa using hword, hm⟩

/-! ### What may stand there is cut off -/

/-- A character of a word is no blank and no quote. -/
theorem plain_of_wordPart {c : Char} (h : isWordPart c = true) :
    c ≠ '\n' ∧ isGap c = false ∧ c ≠ '"' := by
  refine ⟨?_, ?_, ?_⟩
  · rintro rfl
    exact absurd h (by decide)
  · rw [← Bool.not_eq_true]
    intro hgap
    simp only [isGap, Bool.or_eq_true, beq_iff_eq] at hgap
    rcases hgap with (rfl | rfl) | rfl <;> exact absurd h (by decide)
  · rintro rfl
    exact absurd h (by decide)

/-- Digits start no words. -/
theorem isDigit_of_wordStart {c : Char} (h : isWordStart c = true) : c.isDigit = false := by
  rw [← Bool.not_eq_true]
  intro hdigit
  delta isWordStart Char.isAlpha Char.isUpper Char.isLower at h
  delta Char.isDigit at hdigit
  simp only [Bool.or_eq_true, Bool.and_eq_true, decide_eq_true_eq, beq_iff_eq] at h hdigit
  rcases h with (⟨h, -⟩ | ⟨h, -⟩) | rfl
  · exact absurd (UInt32.le_trans h hdigit.2) (by decide)
  · exact absurd (UInt32.le_trans h hdigit.2) (by decide)
  · exact absurd hdigit (by decide)

/-- A digit starts a number, whatever was asked before. -/
theorem first_digit {c : Char} (h : c.isDigit = true) (source : List Char) :
    first c source = firstNumber c source := by
  have hpart : isWordPart c = true := by simp [isWordPart, Char.isAlphanum, h]
  obtain ⟨hnewline, hgap, hquote⟩ := plain_of_wordPart hpart
  simp [first, hnewline, hgap, hquote, h]

/-- A letter starts a word. -/
theorem first_word {c : Char} (h : isWordStart c = true) (source : List Char) :
    first c source = firstWord c source := by
  have hpart : isWordPart c = true := by
    simp only [isWordStart, Bool.or_eq_true] at h
    rcases h with h | h <;> simp [isWordPart, Char.isAlphanum, h]
  obtain ⟨hnewline, hgap, hquote⟩ := plain_of_wordPart hpart
  simp [first, hnewline, hgap, hquote, isDigit_of_wordStart h, h]

/-- The character of a mark starts a mark, unless it starts a comment. -/
theorem first_sign {c : Char} {m : Mark} (h : Mark.ofChar? c = some m) {source : List Char}
    (hslash : m = .slash → Stops (· == '/') source) : first c source = firstMark m source := by
  have hsign : firstSign c source = firstMark m source := by
    unfold firstSign
    rw [h]
  have hcomment : ¬ (c = '/' ∧ source.head? = some '/') := by
    rintro ⟨rfl, hhead⟩
    cases h
    exact absurd (hslash rfl '/' hhead) (by decide)
  rw [first_eq, if_neg hcomment, hsign]
  -- None of the characters of marks passes a test before.
  unfold Mark.ofChar? at h
  split at h <;> cases h <;> rfl

/-- A mark is a character, or another mark with an equals sign behind it. -/
theorem mark_cases (m : Mark) :
    (∃ c, m.text.toList = [c] ∧ Mark.ofChar? c = some m) ∨
    ∃ c shorter, m.text.toList = [c, '='] ∧ Mark.ofChar? c = some shorter ∧
      shorter.withEqual? = some m := by
  cases m
  case bangEqual => exact .inr ⟨'!', .bang, by decide, rfl, rfl⟩
  case equalEqual => exact .inr ⟨'=', .equal, by decide, rfl, rfl⟩
  case greaterEqual => exact .inr ⟨'>', .greater, by decide, rfl, rfl⟩
  case lessEqual => exact .inr ⟨'<', .less, by decide, rfl, rfl⟩
  all_goals exact .inl ⟨_, rfl, rfl⟩

/-- Behind two slashes, all up to the end of the line is cut off. -/
theorem firstComment_eq {body rest : List Char} (hbody : ∀ c ∈ body, (c != '\n') = true)
    (hrest : Stops (· != '\n') rest) : firstComment (body ++ rest) = (comment body, rest) := by
  unfold firstComment
  rw [takeWhile_span hbody hrest, dropWhile_span hbody hrest]

/-- Behind a quote, all up to the next quote is cut off. -/
theorem firstQuoted_eq {body : List Char} (hbody : ∀ c ∈ body, (c != '"') = true)
    (rest : List Char) : firstQuoted (body ++ '"' :: rest) = (quoted body, rest) := by
  have hstops : Stops (· != '"') ('"' :: rest) := by simp
  unfold firstQuoted
  rw [takeWhile_span hbody hstops, dropWhile_span hbody hstops]

/-- Without another quote, all is cut off. -/
theorem firstQuoted_unclosed {body : List Char} (hbody : ∀ c ∈ body, (c != '"') = true) :
    firstQuoted body = (unclosed body, []) := by
  have htake := takeWhile_span hbody (stops_nil _)
  have hdrop := dropWhile_span hbody (stops_nil _)
  rw [List.append_nil] at htake hdrop
  unfold firstQuoted
  rw [htake, hdrop]

/-- Behind the first letter of a word, the other ones are cut off. -/
theorem firstWord_eq (c : Char) {letters rest : List Char}
    (hletters : ∀ x ∈ letters, isWordPart x = true) (hrest : Stops isWordPart rest) :
    firstWord c (letters ++ rest) = (word (c :: letters), rest) := by
  unfold firstWord
  rw [takeWhile_span hletters hrest, dropWhile_span hletters hrest]

/-- Behind the first digit, the other ones are cut off. A point that no digit follows is left. -/
theorem firstNumber_whole (c : Char) {digits rest : List Char}
    (hdigits : ∀ x ∈ digits, x.isDigit = true) (hrest : Stops Char.isDigit rest)
    (hpoint : ∀ later, rest = '.' :: later → Stops Char.isDigit later) :
    firstNumber c (digits ++ rest) = (number (c :: digits) [], rest) := by
  unfold firstNumber
  rw [takeWhile_span hdigits hrest, dropWhile_span hdigits hrest]
  dsimp only
  split
  case h_1 d later =>
    have hd : d.isDigit = false := stops_cons.1 (hpoint _ rfl)
    simp [hd]
  case h_2 => rfl

/-- A point and the digits behind it are cut off as well. -/
theorem firstNumber_fraction (c : Char) {d : Char} {digits more rest : List Char}
    (hdigits : ∀ x ∈ digits, x.isDigit = true) (hd : d.isDigit = true)
    (hmore : ∀ x ∈ more, x.isDigit = true) (hrest : Stops Char.isDigit rest) :
    firstNumber c (digits ++ '.' :: d :: (more ++ rest)) =
      (number (c :: digits) (d :: more), rest) := by
  have hpoint : Stops Char.isDigit ('.' :: d :: (more ++ rest)) := stops_cons.2 (by decide)
  unfold firstNumber
  rw [takeWhile_span hdigits hpoint, dropWhile_span hdigits hpoint]
  simp only [hd, if_true, takeWhile_span hmore hrest, dropWhile_span hmore hrest]

/-- A mark is cut off alone if no equals sign follows that would belong to it. -/
theorem firstMark_eq {m : Mark} {rest : List Char}
    (hrest : m.withEqual? ≠ none → Stops (· == '=') rest) :
    firstMark m rest = (mark m, rest) := by
  unfold firstMark
  split
  case h_1 longer later hlonger =>
    have hstops := hrest (by simp [hlonger])
    simp at hstops
  case h_2 => rfl

/-- A piece is cut off where it may stand. -/
theorem Cut.first_eq {piece : Piece} {c : Char} {source rest : List Char} (h : Cut piece rest)
    (hsource : piece.spelling ++ rest = c :: source) : first c source = (piece, rest) := by
  cases h with
  | newline =>
      cases hsource
      rfl
  | blank hgap =>
      cases hsource
      have hnewline : c ≠ '\n' := by
        rintro rfl
        exact absurd hgap (by decide)
      simp [first, hgap, hnewline]
  | comment hbody hrest =>
      obtain ⟨rfl, rfl⟩ := List.cons.inj hsource
      exact firstComment_eq hbody hrest
  -- A mark of one character stops in front of what follows, and a mark of two has its equals sign.
  | @mark m _ hequal hslash =>
      obtain ⟨c', htext, hm⟩ | ⟨c', shorter, htext, hm, hlonger⟩ := mark_cases m
      · rw [spelling, htext] at hsource
        obtain ⟨rfl, rfl⟩ := List.cons.inj hsource
        exact (first_sign hm hslash).trans (firstMark_eq hequal)
      · rw [spelling, htext] at hsource
        obtain ⟨rfl, rfl⟩ := List.cons.inj hsource
        rw [first_sign hm (by rintro rfl; cases hlonger)]
        simp [firstMark, hlonger]
  | word hc hletters hrest =>
      obtain ⟨rfl, rfl⟩ := List.cons.inj hsource
      exact (first_word hc _).trans (firstWord_eq _ hletters hrest)
  | whole hc hdigits hrest hpoint =>
      obtain ⟨rfl, rfl⟩ := List.cons.inj hsource
      exact (first_digit hc _).trans (firstNumber_whole _ hdigits hrest hpoint)
  | fraction hc hdigits hd hmore hrest =>
      simp only [spelling, List.cons_append, List.append_assoc] at hsource
      obtain ⟨rfl, rfl⟩ := List.cons.inj hsource
      exact (first_digit hc _).trans (firstNumber_fraction _ hdigits hd hmore hrest)
  | quoted hbody =>
      simp only [spelling, List.cons_append, List.append_assoc, List.nil_append] at hsource
      obtain ⟨rfl, rfl⟩ := List.cons.inj hsource
      exact firstQuoted_eq hbody rest
  | @stray x _ hx =>
      obtain ⟨rfl, rfl⟩ := List.cons.inj hsource
      have hslash : x ≠ '/' := by
        rintro rfl
        cases hx.mark
      rw [Piece.first_eq]
      simp [hx.newline, hx.gap, hx.quote, hx.digit, hx.word, hslash, firstSign, hx.mark]
  | unclosed hbody =>
      rw [List.append_nil] at hsource
      obtain ⟨rfl, rfl⟩ := List.cons.inj hsource
      exact firstQuoted_unclosed hbody

/-- The scanner cuts a piece off a source exactly when it may stand in front of the rest. -/
theorem first_iff {piece : Piece} {c : Char} {source rest : List Char} :
    first c source = (piece, rest) ↔ piece.spelling ++ rest = c :: source ∧ Cut piece rest := by
  constructor
  · intro h
    have hspelling := spelling_append_rest c source
    have hcut := first_cut c source
    rw [h] at hspelling hcut
    exact ⟨hspelling, hcut⟩
  · rintro ⟨hsource, hcut⟩
    exact hcut.first_eq hsource

end Scriptlet.Piece
