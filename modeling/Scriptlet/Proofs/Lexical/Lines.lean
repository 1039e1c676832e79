import Scriptlet.Proofs.Lexical.Join
import Scriptlet.Proofs.Lexical.Segments

/-!
# `Scriptlet.Proofs.Lexical.Lines`: a scan goes from line to line

A source may be cut at the end of a line, and its two parts may be scanned apart. The scan of the
first part loses its end token, and the scan of the second part moves down; then the two in a row
are the scan of the whole source. This is so whatever the two parts are, with errors in them or
not. Only a text without an end must not be in the first part, since it would go on in the second
one.

* `Scanner.Passes`: the way of the scanner from one place to another, over errors too.
* `Scan.passes_of_closed`: a scan that reports no text without an end passes all of its source.
* `scan_distributes_over_newline`: the scan of two parts.
-/

set_option autoImplicit false

namespace Scriptlet

/-! ### From one place to another -/

namespace Scanner

/-- From the first place the scanner gives these tokens and these errors until it stands at the
second one. None of the errors is a text without an end. -/
inductive Passes : Scanner → List Token → List StaticError → Scanner → Prop where
  | done {s : Scanner} : Passes s [] [] s
  | step {s s₁ s₂ : Scanner} {reading : Reading} {ts : List Token} {es : List StaticError} :
      s.step = some (reading, s₁) →
      (∀ e, reading = .error e → e.defect ≠ .unterminatedString) → Passes s₁ ts es s₂ →
      Passes s (reading.token?.toList ++ ts) (reading.error?.toList ++ es) s₂

namespace Passes

variable {s s' : Scanner} {ts : List Token} {es : List StaticError}

/-- What is joined to the source does not change the way. -/
theorem join (h : Passes s ts es s') (b : List Char) :
    Passes (s.join b) ts es (s'.join b) := by
  induction h with
  | done => exact .done
  | step hstep hclosed _ ih => exact .step (step_join hstep hclosed b) hclosed ih

/-- Passing over a stretch of the source moves the line on by the line ends in it. -/
theorem line (h : Passes s ts es s') :
    s'.line + Piece.newlines s'.rest = s.line + Piece.newlines s.rest := by
  induction h with
  | done => rfl
  | step hstep _ _ ih => rw [ih, line_of_step hstep]

/-- Passing over a stretch leaves the lexicon in order. -/
theorem sound (h : Passes s ts es s') (hs : s.lexicon.Sound) : s'.lexicon.Sound := by
  induction h with
  | done => exact hs
  | step hstep _ _ ih =>
      obtain ⟨c, source, -, -, rfl⟩ := step_eq hstep
      exact ih (read_sound hs _ _)

end Passes

end Scanner

namespace Scan

/-- The scan from some place on, with tokens and errors in front of it. -/
def follow (ts : List Token) (es : List StaticError) (x : Scan) : Scan :=
  { x with tokens := ts ++ x.tokens, errors := es ++ x.errors }

/-- A scan is what was passed over, and the scan from there on. -/
theorem ofScanner_passes {s s' : Scanner} {ts : List Token} {es : List StaticError}
    (h : s.Passes ts es s') : ofScanner s = follow ts es (ofScanner s') := by
  induction h with
  | done => rfl
  | @step _ _ _ reading ts es hstep _ _ ih =>
      rw [ofScanner_step hstep, ih]
      cases reading <;> rfl

/-- A scan that reports no text without an end passes its source until nothing is left. -/
theorem passes_of_closed {source : List Char} {line : Nat} {l : Lexicon}
    (h : ∀ e ∈ (ofScanner ⟨source, line, l⟩).errors, e.defect ≠ .unterminatedString) :
    ∃ ts es l', Scanner.Passes ⟨source, line, l⟩ ts es
      ⟨[], line + Piece.newlines source, l'⟩ := by
  have hpasses : ∃ ts es s', Scanner.Passes ⟨source, line, l⟩ ts es s' ∧ s'.rest = [] := by
    induction source using Piece.source_induction generalizing line l with
    | nil => exact ⟨[], [], _, .done, rfl⟩
    | cons c source ih =>
        have hstep := Scanner.step_cons c source line l
        dsimp only at hstep
        rw [ofScanner_step hstep, errors_prepend] at h
        generalize Scanner.read _ _ _ = reading at h hstep
        obtain ⟨ts, es, s', hlater, hend⟩ := ih fun e he => h e (List.mem_append_right _ he)
        -- An error of this step is one of the scan, and so it is none of the excluded ones.
        refine ⟨_, _, s', .step hstep (fun e he => ?_) hlater, hend⟩
        exact h e (List.mem_append_left _ (by rw [he]; exact List.mem_singleton.2 rfl))
  obtain ⟨ts, es, ⟨_, line', l'⟩, hpasses, rfl⟩ := hpasses
  have hline : line' = line + Piece.newlines source := hpasses.line
  exact ⟨ts, es, l', hline ▸ hpasses⟩

/-- Symbols of tokens are shared, but for those that spell constants. -/
theorem ofScanner_shared (source : List Char) (line : Nat) {l : Lexicon} (hl : l.Sound) :
    ∀ t ∈ (ofScanner ⟨source, line, l⟩).tokens, t.kind.isConstant = false →
      t.lexeme ∈ (ofScanner ⟨source, line, l⟩).lexicon.interned := by
  induction source using Piece.source_induction generalizing line l with
  | nil =>
      rw [ofScanner_nil]
      intro t ht _
      cases List.mem_singleton.1 ht
      exact Lexicon.mem_intern l ""
  | cons c source ih =>
      let ending := line + Piece.newlines (Piece.first c source).1.spelling
      let read := Scanner.read l ending (Piece.first c source).1
      have hl' : read.2.Sound := Scanner.read_sound hl _ _
      have hlater := ofScanner_known (Piece.first c source).2 ending hl'
      have hcons : ofScanner ⟨c :: source, line, l⟩ = prepend read.1
          (ofScanner ⟨(Piece.first c source).2, ending, read.2⟩) := ofScanner_cons c source line l
      have hlexicon : ∀ x, (prepend read.1 x).lexicon = x.lexicon := by
        intro x
        cases read.1 <;> rfl
      rw [hcons, hlexicon, tokens_prepend]
      intro t ht hkind
      rcases List.mem_append.1 ht with ht | ht
      · -- The piece is read before the rest, which keeps its symbol.
        have hread : read.1 = .token t := by
          cases hreading : read.1 <;> simp_all [Reading.token?]
        exact hlater.grows.interned (Scanner.read_shared hread hkind)
      · exact ih ending hl' t ht hkind

end Scan

/-- Moving a token down keeps what it is without its symbol. -/
theorem Token.bare_later (k : Nat) (t : Token) : (t.later k).bare = t.bare.later k := rfl

/-- Two scans that are the same but for symbols are so further down. -/
theorem Scan.later_bare {x y : Scan} (k : Nat)
    (h : x.tokens.map Token.bare = y.tokens.map Token.bare) :
    (x.later k).tokens.map Token.bare = (y.later k).tokens.map Token.bare := by
  have hlater := congrArg (List.map (Token.later k)) h
  simpa [Scan.later, Token.bare_later, Function.comp_def] using hlater

/-! ### Two parts -/

/-- A source that reports no text without an end, and what is joined to it: the end token goes,
and the other source is scanned further down, with the lexicon `l'` that is left at the join. -/
theorem scan_closed_join {a : String} {l : Lexicon} (hl : l.Sound)
    (hclosed : ∀ e ∈ (scan a l).errors, e.defect ≠ .unterminatedString) (b : String) :
    ∃ ts final l', l'.Sound ∧ final.kind = .eof ∧ (scan a l).tokens = ts ++ [final] ∧
      scan (a ++ "\n" ++ b) l
        = .follow ts (scan a l).errors ((scan b l').later (1 + Piece.newlines a.toList)) := by
  obtain ⟨ts, es, l', hpasses⟩ := Scan.passes_of_closed hclosed
  have hscan : scan a l = .follow ts es _ := Scan.ofScanner_passes hpasses
  rw [Scan.ofScanner_nil] at hscan
  have herrors : (scan a l).errors = es := by
    rw [hscan]
    exact List.append_nil es
  refine ⟨ts, _, l', hpasses.sound hl, rfl, congrArg Scan.tokens hscan, ?_⟩
  -- The line end between the sources is skipped, and the second source starts on the next line.
  have hnewline : Scanner.step ⟨'\n' :: b.toList, 1 + Piece.newlines a.toList, l'⟩
      = some (.skipped, ⟨b.toList, 1 + Piece.newlines a.toList + 1, l'⟩) := rfl
  have hjoin := Scan.ofScanner_passes (hpasses.join b.toList)
  have hdown := Scan.ofScanner_later b.toList 1 (1 + Piece.newlines a.toList) l'
  have hlist : (a ++ "\n" ++ b).toList = a.toList ++ '\n' :: b.toList := by simp
  rw [herrors]
  unfold scan Scanner.ofSource
  rw [hlist, ← hdown, Nat.add_comm 1 (1 + Piece.newlines a.toList)]
  exact hjoin.trans (congrArg (Scan.follow ts es) (Scan.ofScanner_step hnewline))

/-- **Scanning distributes over line ends.** Two sources are joined by a line end, and scanning the
first one reports no text without an end. Then the errors of the joined source are those of the
first one and behind them those of the second one. Its tokens are those of the first one without
the end token and behind them those of the second one, with the same kinds, spellings and
constants. What comes from the second source is further down, by one more than the line ends in the
first one, and nothing else is different. The three scans may use any lexicons; in one and the same
lexicon also the symbols are the same, but for those of constants, which are never shared. -/
theorem scan_distributes_over_newline {l la lb : Lexicon} (hl : l.Sound) (hla : la.Sound)
    (hlb : lb.Sound) (a b : String)
    (hclosed : ∀ e ∈ (scan a la).errors, e.defect ≠ .unterminatedString) :
    let joined := scan (a ++ "\n" ++ b) l
    let second := (scan b lb).later (1 + Piece.newlines a.toList)
    let tokens := (scan a la).tokens.dropLast ++ second.tokens
    (∃ final, (scan a la).tokens.getLast? = some final ∧ final.kind = .eof) ∧
      joined.errors = (scan a la).errors ++ second.errors ∧
      joined.tokens.map Token.bare = tokens.map Token.bare ∧
      ((scan a la).lexicon.Grows l → (scan b lb).lexicon.Grows l →
        ∀ (i : Nat) (t u : Token), joined.tokens[i]? = some t → tokens[i]? = some u →
          t.kind.isConstant = false → t.lexeme = u.lexeme) := by
  intro joined second tokens
  -- The first source is scanned alike with the lexicons `la` and `l`.
  obtain ⟨hatokens, haerrors⟩ := scan_bare a hla hl
  obtain ⟨front, final, -, -, hfinal, hfront, -⟩ := scan_closed_join hla hclosed b
  obtain ⟨ts, final', l', hl', -, hts, hjoined⟩ :=
    scan_closed_join hl (by rwa [haerrors] at hclosed) b
  obtain ⟨hbtokens, hberrors⟩ := scan_bare b hl' hlb
  have hbare : joined.tokens.map Token.bare = tokens.map Token.bare := by
    rw [hfront, hts, List.map_append, List.map_append] at hatokens
    have hsame : front.map Token.bare = ts.map Token.bare := (List.append_inj' hatokens rfl).1
    have hsecond := Scan.later_bare (1 + Piece.newlines a.toList) hbtokens
    simp only [joined, tokens, second, hjoined, hfront, Scan.follow, List.dropLast_concat,
      List.map_append, hsame, hsecond]
  refine ⟨⟨final, by rw [hfront, List.getLast?_concat], hfinal⟩, ?_, hbare, ?_⟩
  · simp only [joined, second, hjoined, Scan.follow, Scan.later, hberrors, haerrors]
  · intro hagrows hbgrows i t u ht hu hkind
    have htu : t.bare = u.bare := by
      have hi := congrArg (·[i]?) hbare
      simpa [List.getElem?_map, ht, hu] using hi
    obtain ⟨hkindeq, hname, -⟩ := Token.bare_eq_iff.1 htu
    have hknown := scan_known (a ++ "\n" ++ b) hl
    have htmem := Scan.ofScanner_shared _ 1 hl t (List.mem_of_getElem? ht) hkind
    have humem : u.lexeme ∈ l.interned := by
      rw [hkindeq] at hkind
      rcases List.mem_append.1 (List.mem_of_getElem? hu) with hu | hu
      · exact hagrows.interned
          (Scan.ofScanner_shared _ 1 hla u (List.dropLast_subset _ hu) hkind)
      · obtain ⟨u', hu', rfl⟩ := List.mem_map.1 hu
        exact hbgrows.interned (Scan.ofScanner_shared _ 1 hlb u' hu' hkind)
    exact hknown.sound.eq_of_name _ htmem _ (hknown.grows.interned humem) hname

/-- A point at the end of the first line takes no digit from the second one. The character that is
no part of the language, and the text without an end in the last line, are reported on the lines on
which they are. In a lexicon that has served for both lines, the name in the second line has the
symbol that it had on its own. -/
theorem scan_distributes_over_newline_point :
    let first := scan "@ x 1." (.new 0)
    let second := scan "2 x \"u" first.lexicon
    let joined := scan "@ x 1.\n2 x \"u" second.lexicon
    joined.errors = [.ofLine 1 (.unexpectedChar '@'), .ofLine 2 .unterminatedString] ∧
      joined.tokens.map (fun t => (t.kind, t.name, t.line))
        = [(.identifier, "x", 1), (.number, "1", 1), (.mark .dot, ".", 1), (.number, "2", 2),
            (.identifier, "x", 2), (.eof, "", 2)] ∧
      ∃ t u, joined.tokens[4]? = some t ∧ second.tokens[1]? = some u ∧ t.lexeme = u.lexeme := by
  intro first second joined
  have hfirst := scan_known "@ x 1." (Lexicon.sound_new 0)
  have hsecond := scan_known "2 x \"u" hfirst.sound
  obtain ⟨-, herrors, htokens, hsymbols⟩ := scan_distributes_over_newline hsecond.sound
    (Lexicon.sound_new 0) hfirst.sound "@ x 1." "2 x \"u" (by decide +kernel)
  have hseen := congrArg (List.map fun t : Token => (t.kind, t.name, t.line)) htokens
  rw [List.map_map, List.map_map] at hseen
  refine ⟨herrors.trans (by decide +kernel), hseen.trans (by decide +kernel), ?_⟩
  have hjoined : joined.tokens[4]?.map Token.kind = some .identifier := by decide +kernel
  have hsecondKind : second.tokens[1]?.map Token.kind = some .identifier := by decide +kernel
  obtain ⟨t, ht, hkind⟩ := Option.map_eq_some_iff.1 hjoined
  obtain ⟨u, hu, -⟩ := Option.map_eq_some_iff.1 hsecondKind
  refine ⟨t, u, ht, hu, ?_⟩
  have hfront : first.tokens.dropLast.length = 3 := by decide +kernel
  have hlater : (first.tokens.dropLast ++ (second.later 1).tokens)[4]? = some (u.later 1) := by
    rw [List.getElem?_append_right (by rw [hfront]; decide), hfront, Scan.later,
      List.getElem?_map, hu]
    rfl
  exact hsymbols hsecond.grows (.refl _) 4 t (u.later 1) ht hlater (by rw [hkind]; rfl)

end Scriptlet
