import Scriptlet.Proofs.Lexical.Scan

/-!
# `Scriptlet.Proofs.Lexical.Join`: sources one below the other

What a scan makes of two sources that are joined by a line end. No piece but a text in quotes
goes over the end of a line, and one that does not find its second quote is an error. So the
pieces of the first source stay as they are (`Piece.first_steady`), and the scanner comes to the
line end behind it as it would have come to the end (`Scanner.Reads.join`). The second source
is scanned from there, on later lines, and the lines are all that is different
(`Scan.ofScanner_later`).

* `Scan.reads_of_errors_nil`: a scan without errors, as what the scanner reads on its way.
* `scan_join`: the scan of two sources that are joined.
-/

set_option autoImplicit false

namespace Scriptlet

/-! ### Pieces in front of a line end -/

namespace Piece

variable {test : Char → Bool}

/-- A line end that does not pass stops the taking where the source would have ended. -/
theorem takeWhile_join (htest : test '\n' = false) (source b : List Char) :
    (source ++ '\n' :: b).takeWhile test = source.takeWhile test := by
  induction source with
  | nil => simp [htest]
  | cons c source ih =>
      rw [List.cons_append, List.takeWhile_cons, List.takeWhile_cons, ih]

/-- What is dropped is dropped before the line end. -/
theorem dropWhile_join (htest : test '\n' = false) (source b : List Char) :
    (source ++ '\n' :: b).dropWhile test = source.dropWhile test ++ '\n' :: b := by
  induction source with
  | nil => simp [htest]
  | cons c source ih =>
      rw [List.cons_append, List.dropWhile_cons, List.dropWhile_cons, ih]
      split <;> rfl

/-- The piece is cut off at the same place if a line end and more follow on the source. -/
def Steady (cut : List Char → Piece × List Char) (source : List Char) : Prop :=
  ∀ b, cut (source ++ '\n' :: b) = ((cut source).1, (cut source).2 ++ '\n' :: b)

/-- A comment ends where its line ends. -/
theorem firstComment_steady (source : List Char) : Steady firstComment source := by
  intro b
  unfold firstComment
  rw [takeWhile_join rfl, dropWhile_join rfl]

/-- A word ends where its line ends, at the latest. -/
theorem firstWord_steady (c : Char) (source : List Char) : Steady (firstWord c) source := by
  intro b
  unfold firstWord
  rw [takeWhile_join (by decide), dropWhile_join (by decide)]

/-- A text that ends in the source ends at the same place, whatever follows. -/
theorem firstQuoted_steady {source : List Char}
    (h : ∀ body, (firstQuoted source).1 ≠ unclosed body) : Steady firstQuoted source := by
  intro b
  unfold firstQuoted at h ⊢
  cases hrest : source.dropWhile (· != '"') with
  | nil =>
      rw [hrest] at h
      exact absurd rfl (h _)
  | cons quote rest =>
      -- The quote was found, so not all of the source lies in front of it.
      have hlength : (source.takeWhile (· != '"')).length ≠ source.length := by
        intro heq
        have hwhole := List.takeWhile_append_dropWhile (p := (· != '"')) (l := source)
        have hsum := congrArg List.length hwhole
        rw [List.length_append, hrest, List.length_cons] at hsum
        omega
      have hbody : (source ++ '\n' :: b).takeWhile (· != '"') = source.takeWhile (· != '"') := by
        rw [List.takeWhile_append, if_neg hlength]
      have hjoined : (source ++ '\n' :: b).dropWhile (· != '"') = quote :: (rest ++ '\n' :: b) := by
        rw [List.dropWhile_append, hrest]
        rfl
      rw [hbody, hjoined]

/-- A point at the end of the line has no digit behind it. -/
theorem firstNumber_steady (c : Char) (source : List Char) :
    Steady (firstNumber c) source := by
  intro b
  have hdigit : Char.isDigit '\n' = false := by decide
  unfold firstNumber
  rw [takeWhile_join hdigit, dropWhile_join hdigit]
  cases hrest : source.dropWhile Char.isDigit with
  | nil => rfl
  | cons point rest =>
      by_cases hpoint : point = '.'
      · subst hpoint
        cases rest with
        -- The point is the last character of its line, so the line end is what stands behind it.
        | nil => simp [hdigit]
        | cons d rest =>
            simp only [List.cons_append]
            split
            · rw [takeWhile_join hdigit, dropWhile_join hdigit]
            · rfl
      · simp [hpoint]

/-- A line end is no equals sign, so a mark stays as it is. -/
theorem firstMark_steady (m : Mark) (source : List Char) : Steady (firstMark m) source := by
  intro b
  unfold firstMark
  cases m.withEqual? with
  | none => rfl
  | some longer =>
      cases source with
      | nil => rfl
      | cons c source =>
          by_cases hc : c = '='
          · subst hc
            rfl
          · simp [hc]

/-- The mark that starts with a character, if one does. -/
def firstSign (c : Char) (source : List Char) : Piece × List Char :=
  match Mark.ofChar? c with
  | some m => firstMark m source
  | none => (stray c, source)

/-- Whatever mark a character starts stays as it is. A slash may start a comment, which stays too.
-/
theorem firstSign_steady (c : Char) (source : List Char) : Steady (firstSign c) source := by
  intro b
  unfold firstSign
  cases Mark.ofChar? c with
  | none => rfl
  | some m => exact firstMark_steady m source b

/-- The kinds of pieces in one row: a comment takes two slashes, and what is left are signs. -/
theorem first_eq (c : Char) (source : List Char) :
    first c source =
      if c == '\n' then (newline, source)
      else if isGap c then (blank c, source)
      else if c == '"' then firstQuoted source
      else if c.isDigit then firstNumber c source
      else if isWordStart c then firstWord c source
      else if c = '/' ∧ source.head? = some '/' then firstComment source.tail
      else firstSign c source := by
  -- Only the slash depends on the character behind it.
  by_cases hc : c = '/'
  · subst hc
    cases source with
    | nil => rfl
    | cons d source =>
        by_cases hd : d = '/'
        · subst hd
          rfl
        · simp [first, hd]
          rfl
  · simp [first, hc]
    rfl

/-- A piece ends where it ends without the line end behind the source, unless it is a text
that does not end at all. -/
theorem first_steady {c : Char} {source : List Char}
    (h : ∀ body, (first c source).1 ≠ unclosed body) : Steady (first c) source := by
  intro b
  rw [first_eq] at h ⊢
  rw [first_eq]
  split
  case isTrue => rfl
  split
  case isTrue => rfl
  split
  case isTrue hnewline hgap hquote =>
    rw [if_neg hnewline, if_neg hgap, if_pos hquote] at h
    exact firstQuoted_steady h b
  split
  case isTrue => exact firstNumber_steady c source b
  split
  case isTrue => exact firstWord_steady c source b
  -- The line end is no second slash.
  cases source with
  | nil =>
      rw [if_neg (by simp), if_neg (by simp)]
      exact firstSign_steady c [] b
  | cons d source =>
      rw [List.cons_append, List.head?_cons, List.head?_cons]
      split
      · exact firstComment_steady source b
      · exact firstSign_steady c (d :: source) b

end Piece

/-! ### From one place to another -/

namespace Scanner

/-- The scanner with a line end and another source behind its own. -/
def join (s : Scanner) (b : List Char) : Scanner := { s with rest := s.rest ++ '\n' :: b }

/-- From the first place the scanner reads these tokens, and no error, until it stands at the
second one. -/
inductive Reads : Scanner → List Token → Scanner → Prop where
  | done {s : Scanner} : Reads s [] s
  | skipped {s s₁ s₂ : Scanner} {ts : List Token} :
      s.step = some (.skipped, s₁) → Reads s₁ ts s₂ → Reads s ts s₂
  | token {s s₁ s₂ : Scanner} {t : Token} {ts : List Token} :
      s.step = some (.token t, s₁) → Reads s₁ ts s₂ → Reads s (t :: ts) s₂

/-- What a step does to a source that is not empty, by the piece in front of it. -/
theorem step_cons (c : Char) (source : List Char) (line : Nat) (l : Lexicon) :
    let piece := (Piece.first c source).1
    let ending := line + Piece.newlines piece.spelling
    step ⟨c :: source, line, l⟩ = some ((read l ending piece).1,
      ⟨(Piece.first c source).2, ending, (read l ending piece).2⟩) := rfl

/-- All that a step does: the first piece is read, on the line on which it ends. -/
theorem step_eq {s s' : Scanner} {reading : Reading} (h : s.step = some (reading, s')) :
    ∃ c source, s.rest = c :: source ∧
      let piece := (Piece.first c source).1
      let line := s.line + Piece.newlines piece.spelling
      reading = (read s.lexicon line piece).1 ∧
        s' = ⟨(Piece.first c source).2, line, (read s.lexicon line piece).2⟩ := by
  obtain ⟨rest, line, l⟩ := s
  cases rest with
  | nil => cases h
  | cons c source =>
      cases h
      exact ⟨c, source, rfl, rfl, rfl⟩

/-- A step that finds no text without an end does not see what is joined to the source. -/
theorem step_join {s s' : Scanner} {reading : Reading} (h : s.step = some (reading, s'))
    (hclosed : ∀ e, reading = .error e → e.defect ≠ .unterminatedString) (b : List Char) :
    (s.join b).step = some (reading, s'.join b) := by
  obtain ⟨c, source, hrest, hreading, rfl⟩ := step_eq h
  have hpiece : ∀ body, (Piece.first c source).1 ≠ .unclosed body := by
    intro body hbody
    rw [hbody] at hreading
    exact hclosed _ hreading rfl
  have hjoin := Piece.first_steady hpiece b
  simp only [step, join, hrest, List.cons_append, hjoin, hreading]

/-- Steps in a row, none of which finds a text without an end, do not see what is joined. -/
theorem Reads.join {s s' : Scanner} {ts : List Token} (h : Reads s ts s') (b : List Char) :
    Reads (s.join b) ts (s'.join b) := by
  induction h with
  | done => exact .done
  | skipped hstep _ ih => exact .skipped (step_join hstep nofun b) ih
  | token hstep _ ih => exact .token (step_join hstep nofun b) ih

/-- The line of a place and the line ends behind the place add up to the same after a step. -/
theorem line_of_step {s s' : Scanner} {reading : Reading} (h : s.step = some (reading, s')) :
    s'.line + Piece.newlines s'.rest = s.line + Piece.newlines s.rest := by
  obtain ⟨c, source, hrest, -, rfl⟩ := step_eq h
  have hcount := congrArg (List.count '\n') (Piece.spelling_append_rest c source)
  rw [List.count_append] at hcount
  simp only [Piece.newlines, hrest]
  omega

/-- Reading pieces moves the line on by the line ends in them. -/
theorem Reads.line {s s' : Scanner} {ts : List Token} (h : Reads s ts s') :
    s'.line + Piece.newlines s'.rest = s.line + Piece.newlines s.rest := by
  induction h with
  | done => rfl
  | skipped hstep _ ih | token hstep _ ih => rw [ih, line_of_step hstep]

/-- No piece is read as the end token. -/
theorem kind_of_read {l : Lexicon} {line : Nat} {piece : Piece} {t : Token}
    (h : (read l line piece).1 = .token t) : t.kind ≠ .eof := by
  cases piece with
  | newline | blank | comment | stray | unclosed => cases h
  | mark | number | quoted =>
      cases h
      nofun
  | word letters =>
      have ht : (wordToken l line letters).1 = t := Reading.token.inj h
      rw [← ht, kind_wordToken]
      dsimp only
      generalize (l.intern (String.ofList letters)).2.keyword? _ = word
      cases word <;> simp

/-- What is read before the end holds no end token. -/
theorem Reads.inner {s s' : Scanner} {ts : List Token} (h : Reads s ts s') :
    ∀ t ∈ ts, t.kind ≠ .eof := by
  induction h with
  | done => nofun
  | skipped _ _ ih => exact ih
  | token hstep _ ih =>
      obtain ⟨c, source, -, hreading, -⟩ := step_eq hstep
      rintro t (_ | ⟨_, ht⟩)
      · exact kind_of_read hreading.symm
      · exact ih t ht

/-- What is read leaves the lexicon in order. -/
theorem Reads.sound {s s' : Scanner} {ts : List Token} (h : Reads s ts s')
    (hs : s.lexicon.Sound) : s'.lexicon.Sound := by
  induction h with
  | done => exact hs
  | skipped hstep _ ih | token hstep _ ih =>
      obtain ⟨c, source, -, -, rfl⟩ := step_eq hstep
      exact ih (read_sound hs _ _)

/-- Reading on from where reading stopped. -/
theorem Reads.append {s s₁ s₂ : Scanner} {ts us : List Token} (h : Reads s ts s₁)
    (h' : Reads s₁ us s₂) : Reads s (ts ++ us) s₂ := by
  induction h with
  | done => exact h'
  | skipped hstep _ ih => exact .skipped hstep (ih h')
  | token hstep _ ih => exact .token hstep (ih h')

/-- Reading adds symbols to the lexicon and takes none away. -/
theorem Reads.grows {s s' : Scanner} {ts : List Token} (h : Reads s ts s') :
    s.lexicon.Grows s'.lexicon := by
  induction h with
  | done => exact .refl _
  | skipped hstep _ ih | token hstep _ ih =>
      obtain ⟨c, source, -, -, rfl⟩ := step_eq hstep
      exact (read_grows _ _ _).trans ih

/-- Symbols that are shared when they are read still are at the end. -/
theorem Reads.shared {s s' : Scanner} {ts : List Token} (h : Reads s ts s') :
    ∀ t ∈ ts, t.kind.isConstant = false → t.lexeme ∈ s'.lexicon.interned := by
  induction h with
  | done => nofun
  | skipped _ _ ih => exact ih
  | token hstep hlater ih =>
      obtain ⟨c, source, -, hreading, rfl⟩ := step_eq hstep
      rintro t (_ | ⟨_, ht⟩) hkind
      · exact hlater.grows.interned (read_shared hreading.symm hkind)
      · exact ih t ht hkind

end Scanner

namespace Scan

/-- A scan from some place on, with tokens in front of it. -/
def behind (ts : List Token) (x : Scan) : Scan := { x with tokens := ts ++ x.tokens }

/-- A scan is its first step and the scan from there on. -/
theorem ofScanner_step {s s' : Scanner} {reading : Reading} (h : s.step = some (reading, s')) :
    ofScanner s = prepend reading (ofScanner s') := by
  rw [ofScanner]
  split <;> simp_all

/-- A scan from a place is what is read up to another place and the scan from there on. -/
theorem ofScanner_reads {s s' : Scanner} {ts : List Token} (h : s.Reads ts s') :
    ofScanner s = behind ts (ofScanner s') := by
  induction h with
  | done => rfl
  | skipped hstep _ ih | token hstep _ ih =>
      rw [ofScanner_step hstep, ih]
      rfl

/-- A scan without errors reads tokens until nothing is left of the source. -/
theorem reads_of_errors_nil {source : List Char} {line : Nat} {l : Lexicon}
    (h : (ofScanner ⟨source, line, l⟩).errors = []) :
    ∃ ts l', Scanner.Reads ⟨source, line, l⟩ ts ⟨[], line + Piece.newlines source, l'⟩ := by
  have hreads : ∃ ts s', Scanner.Reads ⟨source, line, l⟩ ts s' ∧ s'.rest = [] := by
    -- Each step reads a token or skips a piece, since there are no errors.
    induction source using Piece.source_induction generalizing line l with
    | nil => exact ⟨[], _, .done, rfl⟩
    | cons c source ih =>
        have hstep := Scanner.step_cons c source line l
        dsimp only at hstep
        rw [ofScanner_step hstep] at h
        generalize Scanner.read _ _ _ = reading at h hstep
        obtain ⟨_ | t | e, l₁⟩ := reading
        · obtain ⟨ts, s', hlater, hend⟩ := ih h
          exact ⟨ts, s', .skipped hstep hlater, hend⟩
        · obtain ⟨ts, s', hlater, hend⟩ := ih h
          exact ⟨t :: ts, s', .token hstep hlater, hend⟩
        · cases h
  obtain ⟨ts, ⟨_, line', l'⟩, hreads, rfl⟩ := hreads
  have hline : line' = line + Piece.newlines source := hreads.line
  exact ⟨ts, l', hline ▸ hreads⟩

/-- A scanner that has nothing left gives the end token. -/
theorem ofScanner_reads_nil {s : Scanner} {ts : List Token} {line : Nat} {l : Lexicon}
    (h : s.Reads ts ⟨[], line, l⟩) :
    ofScanner s = ⟨ts ++ [⟨.eof, (l.intern "").1, none, line⟩], [], (l.intern "").2⟩ := by
  rw [ofScanner_reads h, ofScanner_nil]
  rfl

/-- What is joined to a source is scanned from the line behind it. -/
theorem ofScanner_join {a : List Char} {ts : List Token} {line line' : Nat} {l l' : Lexicon}
    (h : Scanner.Reads ⟨a, line, l⟩ ts ⟨[], line', l'⟩) (b : List Char) :
    ofScanner ⟨a ++ '\n' :: b, line, l⟩ = behind ts (ofScanner ⟨b, line' + 1, l'⟩) := by
  have hnewline : Scanner.step ⟨'\n' :: b, line', l'⟩ = some (.skipped, ⟨b, line' + 1, l'⟩) := rfl
  have hreads : Scanner.Reads ⟨a ++ '\n' :: b, line, l⟩ ts ⟨'\n' :: b, line', l'⟩ := h.join b
  rw [ofScanner_reads hreads, ofScanner_step hnewline]
  rfl

end Scan

/-! ### Later lines -/

/-- The token, `k` lines further down. -/
def Token.later (k : Nat) (t : Token) : Token := { t with line := t.line + k }

/-- What was read, `k` lines further down. -/
def Reading.later (k : Nat) : Reading → Reading
  | .skipped => .skipped
  | .token t => .token (t.later k)
  | .error e => .error { e with line := e.line + k }

/-- Every token and every error of the scan, `k` lines further down. -/
def Scan.later (k : Nat) (x : Scan) : Scan :=
  { x with
    tokens := x.tokens.map (Token.later k)
    errors := x.errors.map fun e => { e with line := e.line + k } }

/-- The line of a token is that of its place, and nothing else about it depends on lines. -/
theorem Scanner.read_later (l : Lexicon) (line k : Nat) (piece : Piece) :
    read l (line + k) piece = ((read l line piece).1.later k, (read l line piece).2) := by
  cases piece <;> rfl

namespace Scan

/-- Further down, a source is scanned in the same way. -/
theorem ofScanner_later (source : List Char) (line k : Nat) (l : Lexicon) :
    ofScanner ⟨source, line + k, l⟩ = (ofScanner ⟨source, line, l⟩).later k := by
  induction source using Piece.source_induction generalizing line l with
  | nil =>
      rw [ofScanner_nil, ofScanner_nil]
      rfl
  | cons c source ih =>
      rw [ofScanner_cons, ofScanner_cons, Nat.add_right_comm, Scanner.read_later, ih]
      cases (Scanner.read l (line + Piece.newlines (Piece.first c source).1.spelling)
        (Piece.first c source).1).1 <;> rfl

/-- Empty lines in front of a source only move it down. -/
theorem ofScanner_emptyLines (k : Nat) (source : List Char) (line : Nat) (l : Lexicon) :
    ofScanner ⟨List.replicate k '\n' ++ source, line, l⟩ = ofScanner ⟨source, line + k, l⟩ := by
  induction k generalizing line with
  | zero => rfl
  | succ k ih =>
      have hnewline : Scanner.step ⟨'\n' :: (List.replicate k '\n' ++ source), line, l⟩ =
          some (.skipped, ⟨List.replicate k '\n' ++ source, line + 1, l⟩) := rfl
      rw [List.replicate_succ, List.cons_append, ofScanner_step hnewline]
      show ofScanner _ = _
      rw [ih, Nat.add_right_comm, Nat.add_assoc]

end Scan

/-- A source that is nothing but line ends. -/
def emptyLines (k : Nat) : String := String.ofList (List.replicate k '\n')

/-- Empty lines in front of a source move its tokens and errors down, and do nothing else. -/
theorem scan_emptyLines (k : Nat) (source : String) (l : Lexicon) :
    scan (emptyLines k ++ source) l = (scan source l).later k := by
  have hlist : (emptyLines k ++ source).toList = List.replicate k '\n' ++ source.toList := by
    simp [emptyLines]
  unfold scan Scanner.ofSource
  rw [hlist, Scan.ofScanner_emptyLines, Scan.ofScanner_later]

/-- A scan without errors gives tokens and the end token behind them. If another source is
joined to this one, the tokens stay, and behind them are those of the other source, further
down and with the lexicon `la` that this one leaves. -/
theorem scan_join {a : String} {l : Lexicon} (hl : l.Sound) (ha : (scan a l).errors = []) :
    ∃ ts final la, la.Sound ∧ (∀ t ∈ ts, t.kind ≠ .eof) ∧ final.kind = .eof ∧
      (scan a l).tokens = ts ++ [final] ∧ ∀ b : String, scan (a ++ "\n" ++ b) l =
        Scan.behind ts (scan (emptyLines (1 + Piece.newlines a.toList) ++ b) la) := by
  obtain ⟨ts, la, hreads⟩ := Scan.reads_of_errors_nil ha
  have hscan : scan a l = _ := Scan.ofScanner_reads_nil hreads
  refine ⟨ts, _, la, hreads.sound hl, hreads.inner, rfl, congrArg Scan.tokens hscan, fun b => ?_⟩
  have hlist : (a ++ "\n" ++ b).toList = a.toList ++ '\n' :: b.toList := by simp
  have hjoin := Scan.ofScanner_join hreads b.toList
  rw [Nat.add_assoc, Nat.add_comm _ 1, Scan.ofScanner_later] at hjoin
  rw [scan_emptyLines]
  unfold scan Scanner.ofSource
  rw [hlist, hjoin]

end Scriptlet
