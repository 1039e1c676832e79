import Scriptlet.Proofs.Lexical.Cut

/-!
# `Scriptlet.Proofs.Lexical.Segments`: a scan accounts for every character

A source is a row of segments: lexemes of tokens, blanks and line ends, comments, characters
that are reported, and possibly a text without an end. `scan_segments` says that a scan goes
through such a row from the first character to the last one. Its tokens and its errors are
those of the segments, in their order, each on the line on which its segment ends, and behind
them is one end token.

`Segment.Fits before after` says what a segment is allowed to be between two texts. The line
of a token or an error is told from the text before it, not from the scanner.
-/

set_option autoImplicit false

namespace Scriptlet

/-! ### What single calls give -/

namespace Reading

/-- The token, if one was read. -/
def token? : Reading → Option Token
  | token t => some t
  | _ => none

/-- The error, if one was met. -/
def error? : Reading → Option StaticError
  | error e => some e
  | _ => none

/-- What the caller gets to see, unless the piece is skipped. -/
def result? : Reading → Option (Except StaticError Token)
  | skipped => none
  | token t => some (.ok t)
  | error e => some (.error e)

end Reading

namespace Scan

/-- A reading in front of a scan adds its token, if it is one. -/
theorem tokens_prepend (reading : Reading) (x : Scan) :
    (prepend reading x).tokens = reading.token?.toList ++ x.tokens := by
  cases reading <;> rfl

/-- It adds its error, if it is one. -/
theorem errors_prepend (reading : Reading) (x : Scan) :
    (prepend reading x).errors = reading.error?.toList ++ x.errors := by
  cases reading <;> rfl

end Scan

namespace Scanner

/-- What the scanner gives when it is called again and again, counted from zero. -/
def results (s : Scanner) : Nat → Except StaticError Token
  | 0 => s.next.1
  | k + 1 => results s.next.2 k

/-- A piece that is skipped is not seen by the caller. Any other one is the next result. -/
theorem next_of_step {s s' : Scanner} {reading : Reading} (h : s.step = some (reading, s')) :
    s.next = match reading.result? with
      | none => s'.next
      | some result => (result, s') := by
  rw [next]
  cases reading <;> split <;> simp_all [Reading.result?]

/-- After a step, the scanner gives what it read there, and then what it would give from there on.
-/
theorem results_of_step {s s' : Scanner} {reading : Reading} (h : s.step = some (reading, s'))
    (k : Nat) : s.results k = match reading.result?, k with
      | none, k => s'.results k
      | some result, 0 => result
      | some _, k + 1 => s'.results k := by
  have hnext := next_of_step h
  cases k with
  | zero =>
      refine (congrArg Prod.fst hnext).trans ?_
      cases reading <;> rfl
  | succ k =>
      refine (congrArg (fun x => results x.2 k) hnext).trans ?_
      cases reading <;> rfl

/-- At the end of the source the end token is given for ever. -/
theorem results_nil (line : Nat) (l : Lexicon) (k : Nat) :
    results ⟨[], line, l⟩ k = .ok ⟨.eof, (l.intern "").1, none, line⟩ := by
  have hnext : ∀ l, next ⟨[], line, l⟩ =
      (.ok ⟨.eof, (l.intern "").1, none, line⟩, ⟨[], line, (l.intern "").2⟩) := by
    intro l
    rw [next]
    rfl
  induction k generalizing l with
  | zero => exact congrArg Prod.fst (hnext l)
  | succ k ih =>
      show results (next _).2 k = _
      -- The symbol that spells nothing was issued for the first end token.
      rw [hnext, ih, Lexicon.intern_intern]

end Scanner

/-! ### Segments -/

/-- A stretch of a source with what is made of it. -/
inductive Segment where
  /-- The lexeme of a token. -/
  | token (t : Token)
  /-- A character between tokens. -/
  | gap (c : Char)
  /-- Two slashes and what follows them. -/
  | comment (body : List Char)
  /-- A character that is reported. -/
  | unexpected (c : Char) (e : StaticError)
  /-- A quote and what follows it, reported. -/
  | unterminated (body : List Char) (e : StaticError)

namespace Segment

/-- The characters of a segment. -/
def text : Segment → List Char
  | token t => t.name.toList
  | gap c => [c]
  | comment body => '/' :: '/' :: body
  | unexpected c _ => [c]
  | unterminated body _ => '"' :: body

/-- What a segment gives. -/
def reading : Segment → Reading
  | token t => .token t
  | gap _ | comment _ => .skipped
  | unexpected _ e | unterminated _ e => .error e

/-- The text of several segments. -/
def textAll (segments : List Segment) : List Char := segments.flatMap text

end Segment

/-- A string carries what stands between its quotes, and only strings and numbers carry
anything. -/
structure Token.CarriesConstant (t : Token) : Prop where
  string : t.kind = .string → ∃ body, t.name.toList = '"' :: (body ++ ['"']) ∧
    t.literal = some (.string (String.ofList body))
  constant : t.literal ≠ none ↔ t.kind = .string ∨ t.kind = .number

/-- The segment may stand between these texts, and what it gives is right there. -/
inductive Segment.Fits (before after : List Char) : Segment → Prop where
  | token {t : Token} : t.kind ≠ .eof → t.name ≠ "" → t.CarriesConstant →
      t.line = 1 + Piece.newlines (before ++ t.name.toList) → Fits before after (.token t)
  | gap {c : Char} : c ∈ [' ', '\t', '\r', '\n'] → Fits before after (.gap c)
  /-- A comment goes up to the end of its line. -/
  | comment {body : List Char} : '\n' ∉ body → (∀ c ∈ after.head?, c = '\n') →
      Fits before after (.comment body)
  | unexpected {c : Char} : Fits before after
      (.unexpected c (.ofLine (1 + Piece.newlines before) (.unexpectedChar c)))
  /-- A text without an end is the last segment. -/
  | unterminated {body : List Char} : '"' ∉ body → after = [] → Fits before after
      (.unterminated body
        (.ofLine (1 + Piece.newlines (before ++ '"' :: body)) .unterminatedString))

namespace Piece

/-- Line ends are counted in both parts of a text. -/
theorem newlines_append (a b : List Char) : newlines (a ++ b) = newlines a + newlines b :=
  List.count_append

end Piece

namespace Segment

open Piece (newlines)

/-- A token that is read from its own spelling fits. -/
theorem fits_token {before : List Char} (after : List Char) {t : Token} {spelling : List Char}
    (hname : t.name = String.ofList spelling) (hspelling : spelling ≠ [])
    (hkind : t.kind ≠ .eof) (hcarries : t.CarriesConstant)
    (hline : t.line = 1 + newlines before + newlines spelling) :
    (token t).text = spelling ∧ (token t).Fits before after := by
  have htext : t.name.toList = spelling := by rw [hname, String.toList_ofList]
  refine ⟨htext, .token hkind ?_ hcarries ?_⟩
  · intro hempty
    rw [hempty] at htext
    exact hspelling htext.symm
  · rw [htext, Piece.newlines_append, hline, Nat.add_assoc]

/-- A word carries nothing, whether it is reserved or not. -/
theorem carriesConstant_word (l : Lexicon) (line : Nat) (letters : List Char) :
    (Scanner.wordToken l line letters).1.CarriesConstant := by
  have hkind := Scanner.kind_wordToken l line letters
  have hword : (Scanner.wordToken l line letters).1.kind ≠ .string ∧
      (Scanner.wordToken l line letters).1.kind ≠ .number := by
    rw [hkind]
    dsimp only
    generalize Lexicon.keyword? _ _ = word
    cases word <;> simp
  have hliteral : (Scanner.wordToken l line letters).1.literal = none := rfl
  exact ⟨fun h => absurd h hword.1, by simp [hliteral, hword]⟩

/-- The segment that a piece is, behind the text `before` and in front of the text `rest`. -/
theorem exists_of_cut {piece : Piece} {rest : List Char} (h : Piece.Cut piece rest)
    (before : List Char) (l : Lexicon) :
    ∃ segment : Segment, segment.text = piece.spelling ∧
      segment.reading =
        (Scanner.read l (1 + newlines before + newlines piece.spelling) piece).1 ∧
      segment.Fits before rest := by
  -- What is read as a token is a segment on its own, with the spelling of the piece.
  have htoken : ∀ t : Token,
      (Scanner.read l (1 + newlines before + newlines piece.spelling) piece).1 = .token t →
      t.name = String.ofList piece.spelling → piece.spelling ≠ [] → t.CarriesConstant →
      t.line = 1 + newlines before + newlines piece.spelling →
      ∃ segment : Segment, segment.text = piece.spelling ∧
        segment.reading =
          (Scanner.read l (1 + newlines before + newlines piece.spelling) piece).1 ∧
        segment.Fits before rest := by
    intro t hread hname hspelling hcarries hline
    obtain ⟨htext, hfits⟩ := fits_token rest hname hspelling
      (Scanner.kind_of_read hread) hcarries hline
    exact ⟨.token t, htext, hread.symm, hfits⟩
  cases h with
  | newline => exact ⟨.gap '\n', rfl, rfl, .gap (by decide)⟩
  | @blank c _ hgap =>
      refine ⟨.gap c, rfl, rfl, .gap ?_⟩
      simp only [Piece.isGap, Bool.or_eq_true, beq_iff_eq] at hgap
      rcases hgap with (rfl | rfl) | rfl <;> decide
  | @comment body _ hbody hrest =>
      refine ⟨.comment body, rfl, rfl, .comment (fun hmem => ?_) fun c hc => ?_⟩
      · exact absurd (hbody _ hmem) (by decide)
      · simpa using hrest c hc
  | @mark m =>
      refine htoken _ rfl (Lexicon.name_intern l _) ?_ ⟨by simp, by simp⟩ rfl
      cases m <;> decide
  | @word c letters =>
      refine htoken _ rfl (Lexicon.name_intern l _) (by simp [Piece.spelling]) ?_ rfl
      exact carriesConstant_word l _ (c :: letters)
  | @whole c digits => exact htoken _ rfl rfl (by simp [Piece.spelling]) ⟨by simp, by simp⟩ rfl
  | @fraction => exact htoken _ rfl rfl (by simp [Piece.spelling]) ⟨by simp, by simp⟩ rfl
  | @quoted body _ hbody =>
      refine htoken _ rfl rfl (by simp [Piece.spelling]) ⟨fun _ => ⟨body, ?_, rfl⟩, by simp⟩ rfl
      exact String.toList_ofList
  | @stray c _ hc =>
      -- Its line is that of the text before it, since it is no line end itself.
      have hline : newlines (Piece.stray c).spelling = 0 := by
        simp [newlines, Piece.spelling, hc.newline]
      rw [hline]
      exact ⟨.unexpected c _, rfl, rfl, .unexpected⟩
  | @unclosed body hbody =>
      refine ⟨.unterminated body _, rfl, rfl, ?_⟩
      rw [Nat.add_assoc, ← Piece.newlines_append]
      exact .unterminated (fun hmem => absurd (hbody _ hmem) (by decide)) rfl

/-! ### Whole sources -/

/-- What is known of a source behind the text `before`: it is a row of segments, which fit one
behind the other, and the scanner gives what they give. -/
structure Account (before source : List Char) (l : Lexicon) (segments : List Segment)
    (final : Token) : Prop where
  text : textAll segments = source
  fits : ∀ early segment late, segments = early ++ segment :: late →
    segment.Fits (before ++ textAll early) (textAll late)
  tokens : (Scan.ofScanner ⟨source, 1 + newlines before, l⟩).tokens =
    segments.filterMap (·.reading.token?) ++ [final]
  errors : (Scan.ofScanner ⟨source, 1 + newlines before, l⟩).errors =
    segments.filterMap (·.reading.error?)
  results : ∀ k, Scanner.results ⟨source, 1 + newlines before, l⟩ k =
    ((segments.filterMap (·.reading.result?))[k]?).getD (.ok final)
  kind : final.kind = .eof
  name : final.name = ""
  literal : final.literal = none
  line : final.line = 1 + newlines (before ++ source)

/-- A source that is at its end has no segments, and the end token is all that is given. -/
theorem account_nil (before : List Char) (l : Lexicon) :
    Account before [] l [] ⟨.eof, (l.intern "").1, none, 1 + newlines before⟩ where
  text := rfl
  fits early segment late h := by simp at h
  tokens := by rw [Scan.ofScanner_nil]; rfl
  errors := by rw [Scan.ofScanner_nil]; rfl
  results k := Scanner.results_nil _ l k
  kind := rfl
  name := Lexicon.name_intern l ""
  literal := rfl
  line := by rw [List.append_nil]

/-- A row of segments with another one in front of it, which the scanner comes to first. -/
theorem Account.cons {before source rest : List Char} {l l' : Lexicon} {segment : Segment}
    {segments : List Segment} {final : Token}
    (h : Account (before ++ segment.text) rest l' segments final)
    (hsource : segment.text ++ rest = source) (hfits : segment.Fits before rest)
    (hstep : Scanner.step ⟨source, 1 + newlines before, l⟩ =
      some (segment.reading, ⟨rest, 1 + newlines (before ++ segment.text), l'⟩)) :
    Account before source l (segment :: segments) final where
  text := by
    rw [← hsource, ← h.text]
    rfl
  fits early x late hsplit := by
    -- The first segment is the one of this step, and the others are those of the rest.
    cases early with
    | nil =>
        cases hsplit
        rw [h.text]
        simpa [textAll] using hfits
    | cons x' early =>
        cases hsplit
        have hlater := h.fits early x late rfl
        rwa [List.append_assoc] at hlater
  tokens := by
    rw [Scan.ofScanner_step hstep, Scan.tokens_prepend, h.tokens, List.filterMap_cons]
    cases segment.reading <;> rfl
  errors := by
    rw [Scan.ofScanner_step hstep, Scan.errors_prepend, h.errors, List.filterMap_cons]
    cases segment.reading <;> rfl
  results k := by
    rw [Scanner.results_of_step hstep, List.filterMap_cons]
    -- A segment that is skipped gives nothing, and any other gives the first result.
    cases segment.reading with
    | skipped => exact h.results k
    | token t | error e =>
        cases k with
        | zero => rfl
        | succ k => exact h.results k
  kind := h.kind
  name := h.name
  literal := h.literal
  line := by rw [h.line, List.append_assoc, hsource]

/-- Every source is a row of segments, wherever it stands. -/
theorem exists_account (before source : List Char) (l : Lexicon) :
    ∃ segments final, Account before source l segments final := by
  -- On the source, piece by piece; the text before it and the lexicon grow on the way.
  induction source using Piece.source_induction generalizing before l with
  | nil => exact ⟨[], _, account_nil before l⟩
  | cons c source ih =>
      obtain ⟨segment, htext, hreading, hfits⟩ :=
        exists_of_cut (Piece.first_cut c source) before l
      have hstep := Scanner.step_cons c source (1 + newlines before) l
      dsimp only at hstep
      rw [← hreading, ← htext, Nat.add_assoc, ← Piece.newlines_append] at hstep
      obtain ⟨segments, final, hlater⟩ := ih (before ++ segment.text) _
      refine ⟨segment :: segments, final, hlater.cons ?_ hfits hstep⟩
      rw [htext, Piece.spelling_append_rest]

end Segment

/-! ### How far down a scan goes -/

/-- No token and no error is on a line behind this one. -/
structure Scan.EndsBy (last : Nat) (x : Scan) : Prop where
  tokens : ∀ t ∈ x.tokens, t.line ≤ last
  errors : ∀ e ∈ x.errors, e.line ≤ last

namespace Scanner

/-- A token is on the line on which its piece ends. -/
theorem line_of_token {l : Lexicon} {line : Nat} {piece : Piece} {t : Token}
    (h : (read l line piece).1 = .token t) : t.line = line := by
  cases piece with
  | newline | blank | comment | stray | unclosed => cases h
  | mark | word | number | quoted =>
      cases h
      rfl

/-- An error is on the line on which its piece ends. -/
theorem line_of_error {l : Lexicon} {line : Nat} {piece : Piece} {e : StaticError}
    (h : (read l line piece).1 = .error e) : e.line = line := by
  cases piece with
  | newline | blank | comment | mark | word | number | quoted => cases h
  | stray | unclosed =>
      cases h
      rfl

end Scanner

/-- A piece that is read on such a line does not lead out of the scan's lines. -/
theorem Scan.EndsBy.prepend {last : Nat} {reading : Reading} {x : Scan} (hx : x.EndsBy last)
    (htoken : ∀ t, reading = .token t → t.line ≤ last)
    (herror : ∀ e, reading = .error e → e.line ≤ last) : (Scan.prepend reading x).EndsBy last := by
  cases reading with
  | skipped => exact hx
  | token t => exact ⟨List.forall_mem_cons.2 ⟨htoken t rfl, hx.tokens⟩, hx.errors⟩
  | error e => exact ⟨hx.tokens, List.forall_mem_cons.2 ⟨herror e rfl, hx.errors⟩⟩

/-- From any place, the last line is that place's line and one more for every line end behind it. -/
theorem Scan.ofScanner_endsBy (source : List Char) (line : Nat) (l : Lexicon) :
    (ofScanner ⟨source, line, l⟩).EndsBy (line + Piece.newlines source) := by
  induction source using Piece.source_induction generalizing line l with
  | nil =>
      rw [ofScanner_nil]
      exact ⟨List.forall_mem_singleton.2 (Nat.le_refl line), List.forall_mem_nil _⟩
  | cons c source ih =>
      rw [ofScanner_cons, ← Scanner.line_of_step (Scanner.step_cons c source line l)]
      refine (ih _ _).prepend (fun t ht => ?_) fun e he => ?_
      · exact Nat.le_add_right_of_le (Nat.le_of_eq (Scanner.line_of_token ht))
      · exact Nat.le_add_right_of_le (Nat.le_of_eq (Scanner.line_of_error he))

/-- A scan stays on the lines of its source. So lines fit in 32 bits if there are fewer than
`2 ^ 32 - 1` line ends. -/
theorem scan_endsBy (source : String) (l : Lexicon) :
    (scan source l).EndsBy (1 + Piece.newlines source.toList) :=
  Scan.ofScanner_endsBy source.toList 1 l

/-! ### The segments of a scan -/

/-- **A scan loses and invents nothing.** Every source is a row of segments: lexemes of tokens,
blanks and line ends, comments that go up to the end of their line, characters that are
reported, and possibly a text without an end, which is reported and comes last. The tokens of
the scan are those of the segments and one end token behind them, the errors are those of the
segments, and the scanner gives both one after the other and then the end token for ever. What
`Segment.Fits` says of a segment between the texts before and behind it holds of each of them;
this includes the line of its token or error. -/
theorem scan_segments (source : String) (l : Lexicon) :
    ∃ (segments : List Segment) (final : Token),
      source.toList = segments.flatMap Segment.text ∧
      (∀ early segment late, segments = early ++ segment :: late →
        segment.Fits (early.flatMap Segment.text) (late.flatMap Segment.text)) ∧
      (scan source l).tokens = segments.filterMap (·.reading.token?) ++ [final] ∧
      (scan source l).errors = segments.filterMap (·.reading.error?) ∧
      (final.kind = .eof ∧ final.name = "" ∧ final.literal = none ∧
        final.line = 1 + Piece.newlines source.toList) ∧
      ∀ k, (Scanner.ofSource source l).results k =
        ((segments.filterMap (·.reading.result?))[k]?).getD (.ok final) := by
  obtain ⟨segments, final, h⟩ := Segment.exists_account [] source.toList l
  exact ⟨segments, final, h.text.symm, h.fits, h.tokens, h.errors,
    ⟨h.kind, h.name, h.literal, h.line⟩, h.results⟩

end Scriptlet
