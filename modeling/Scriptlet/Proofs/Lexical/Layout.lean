import Scriptlet.Proofs.Lexical.Lexeme
import Scriptlet.Proofs.Number.ReadBack

/-!
# `Scriptlet.Proofs.Lexical.Layout`: tokens written with layout between them

A `Layout` is a row of blanks, line ends and comments, each comment with the line end behind it.
`render` writes tokens with a layout in front of them and behind each of them. The layouts keep
the tokens apart (`Separated`) if none of those between two tokens is empty, with one exception:
behind a slash a layout must not start with a comment, since the slash would be taken for part of
the comment (`slash_lost_before_comment`).

* `Scanner.reads_items`: tokens that are kept apart are read one by one, each on the line on which
  its text ends (`Placed`).
* `spelled_tokens_scanned`: a text of tokens and layouts is scanned without an error into these
  tokens, however they are written (`Token.Written`).
* `scan_render`: the same for numbers that are written with their shortest digits
  (`Token.Spelled`), and what is known of the symbols.
-/

set_option autoImplicit false

namespace Scriptlet

/-! ### Layouts -/

/-- What may stand between two tokens. -/
inductive Gap where
  | space
  | tab
  | carriageReturn
  | newline
  /-- A comment, up to the end of its line and with it. -/
  | comment (body : List Char) (inLine : '\n' ∉ body)

/-- The source text of a gap. -/
def Gap.text : Gap → List Char
  | space => [' ']
  | tab => ['\t']
  | carriageReturn => ['\r']
  | newline => ['\n']
  | comment body _ => '/' :: '/' :: (body ++ ['\n'])

/-- Whether the gap starts with a slash. -/
def Gap.isComment : Gap → Bool
  | comment _ _ => true
  | _ => false

/-- Gaps in a row. -/
abbrev Layout := List Gap

/-- The source text of a layout. -/
def Layout.text (layout : Layout) : List Char := layout.flatMap Gap.text

/-- Tokens with a layout in front of them and a layout behind each of them. -/
def render (lead : Layout) (items : List (Token × Layout)) : List Char :=
  lead.text ++ items.flatMap fun item => item.1.name.toList ++ item.2.text

/-- The layouts keep the tokens apart: none is empty, but possibly the last one, and none
behind a slash starts with a comment. -/
structure Separated (items : List (Token × Layout)) : Prop where
  nonempty : ∀ item ∈ items.dropLast, item.2 ≠ []
  slash : ∀ item ∈ items, item.1.kind = .mark .slash →
    ∀ gap ∈ item.2.head?, gap.isComment = false

/-- A layout with another token behind it is not empty. -/
theorem Separated.head {item next : Token × Layout} {items : List (Token × Layout)}
    (h : Separated (item :: next :: items)) : item.2 ≠ [] :=
  h.nonempty item (by simp)

/-- Without the first token, the others are still kept apart. -/
theorem Separated.tail {item : Token × Layout} {items : List (Token × Layout)}
    (h : Separated (item :: items)) : Separated items := by
  refine ⟨fun item' hitem => h.nonempty item' ?_,
    fun item' hitem => h.slash item' (List.mem_cons_of_mem _ hitem)⟩
  cases items with
  | nil => cases hitem
  | cons next items => exact List.mem_cons_of_mem _ hitem

/-- A token as it is written. Marks and reserved words have a spelling of their own, names are
words that are not reserved, numbers are finite and have no sign, and no text contains a double
quote. -/
inductive Token.Spelled : Token → Prop where
  | mark {m : Mark} {lexeme : Symbol} {line : Nat} : lexeme.name = m.text →
      Spelled ⟨.mark m, lexeme, none, line⟩
  | keyword {k : Keyword} {lexeme : Symbol} {line : Nat} : lexeme.name = k.text →
      Spelled ⟨.keyword k, lexeme, none, line⟩
  | name {c : Char} {letters : List Char} {lexeme : Symbol} {line : Nat} :
      Piece.isWordStart c = true → (∀ x ∈ letters, Piece.isWordPart x = true) →
      lexeme.name = String.ofList (c :: letters) → (∀ k : Keyword, k.text ≠ lexeme.name) →
      Spelled ⟨.identifier, lexeme, none, line⟩
  | number {x : Float} {lexeme : Symbol} {line : Nat} : x.toBits.toNat < Binary64.infinity →
      lexeme.name = Number.text x → Spelled ⟨.number, lexeme, some (.number x), line⟩
  | string {body : List Char} {lexeme : Symbol} {line : Nat} : '"' ∉ body →
      lexeme.name = String.ofList ('"' :: (body ++ ['"'])) →
      Spelled ⟨.string, lexeme, some (.string (String.ofList body)), line⟩

/-- The text of some items is that of the first one and that of the others. -/
theorem render_cons (t : Token) (layout : Layout) (items : List (Token × Layout)) :
    render [] ((t, layout) :: items) = t.name.toList ++ (layout.text ++ render [] items) :=
  List.append_assoc _ _ _

/-- Tokens that differ in their line and in the number of their symbol at most. -/
structure Token.Same (t u : Token) : Prop where
  kind : t.kind = u.kind
  name : t.name = u.name
  literal : t.literal = u.literal

/-- Tokens that were read from these items, behind a text. Each is on the line on which its
own text ends. -/
inductive Placed : List Char → List (Token × Layout) → List Token → Prop where
  | nil {before : List Char} : Placed before [] []
  | cons {before : List Char} {t u : Token} {layout : Layout} {items : List (Token × Layout)}
      {us : List Token} : t.Same u → u.line = 1 + Piece.newlines (before ++ t.name.toList) →
      Placed (before ++ t.name.toList ++ layout.text) items us →
      Placed before ((t, layout) :: items) (u :: us)

namespace Placed

variable {before : List Char} {items : List (Token × Layout)} {us : List Token}

/-- Tokens that were read from items are the tokens of the items, but for lines and numbers of
symbols. -/
theorem same (h : Placed before items us) : List.Forall₂ Token.Same (items.map (·.1)) us := by
  induction h with
  | nil => exact .nil
  | cons hsame _ _ ih => exact .cons hsame ih

/-- What was read from one of the items: its line is told by the text up to its end. -/
theorem of_split (h : Placed before items us) {early late : List (Token × Layout)} {t : Token}
    {layout : Layout} (hsplit : items = early ++ (t, layout) :: late) :
    ∃ u, us[early.length]? = some u ∧ t.Same u ∧
      u.line = 1 + Piece.newlines (before ++ render [] early ++ t.name.toList) := by
  induction h generalizing early with
  | nil => simp at hsplit
  | @cons before t' u layout' items us hsame hline _ ih =>
      -- The text in front of an item is what stands before all of them and the items that come
      -- earlier.
      cases early with
      | nil =>
          cases hsplit
          refine ⟨u, rfl, hsame, ?_⟩
          rw [hline]
          simp [render, Layout.text]
      | cons item early =>
          cases hsplit
          obtain ⟨v, hv, hsame, hline⟩ := ih rfl
          refine ⟨v, hv, hsame, ?_⟩
          rw [hline, render_cons]
          simp only [List.append_assoc]

end Placed

/-! ### Where tokens end -/

/-- No token of this kind goes on with the text. -/
def Kind.EndsBefore (kind : Kind) (text : List Char) : Prop :=
  ∀ c ∈ text.head?, c ∈ [' ', '\t', '\r', '\n'] ∨ c = '/' ∧ kind ≠ .mark .slash

namespace Piece

/-- A text that cannot go on with a token does not start with a character that would. -/
theorem stops_of_endsBefore {test : Char → Bool} {kind : Kind} {text : List Char}
    (h : kind.EndsBefore text) (hblank : [' ', '\t', '\r', '\n'].all (!test ·) = true)
    (hslash : kind ≠ .mark .slash → test '/' = false) : Stops test text := by
  intro c hc
  rcases h c hc with h | ⟨rfl, hkind⟩
  · simpa using List.all_eq_true.1 hblank c h
  · exact hslash hkind

/-- A mark may stand where no longer one could. -/
theorem Cut.of_mark {m : Mark} {rest : List Char} (h : (Kind.mark m).EndsBefore rest) :
    Cut (.mark m) rest := by
  refine .mark (fun _ => stops_of_endsBefore h (by decide) fun _ => by decide) fun hm => ?_
  -- Only here it matters that a slash is not in front of a comment.
  exact stops_of_endsBefore h (by decide) fun hkind => absurd (congrArg Kind.mark hm) hkind

/-- A word may stand where it cannot go on. -/
theorem Cut.of_word {kind : Kind} {c : Char} {letters rest : List Char}
    (hc : isWordStart c = true) (hletters : ∀ x ∈ letters, isWordPart x = true)
    (h : kind.EndsBefore rest) : Cut (.word (c :: letters)) rest :=
  .word hc hletters (stops_of_endsBefore h (by decide) fun _ => by decide)

/-- Digits may stand where no number could go on. A point with digits behind it would be such a
number. -/
theorem Cut.of_digits {kind : Kind} {whole fraction rest : List Char} (hwhole : whole ≠ [])
    (hdigits : ∀ c ∈ whole ++ fraction, c.isDigit = true) (h : kind.EndsBefore rest) :
    Cut (.number whole fraction) rest := by
  have hstops : Stops Char.isDigit rest :=
    stops_of_endsBefore h (by decide) fun _ => by decide
  obtain ⟨c, digits, rfl⟩ := List.exists_cons_of_ne_nil hwhole
  simp only [List.cons_append, List.forall_mem_cons, List.forall_mem_append] at hdigits
  obtain ⟨hc, hdigits, hfraction⟩ := hdigits
  cases fraction with
  | nil =>
      refine .whole hc hdigits hstops fun later hlater => ?_
      -- A point is not what stands behind a token.
      rw [hlater] at h
      rcases h '.' rfl with h | ⟨h, -⟩
      · exact absurd h (by decide)
      · exact absurd h (by decide)
  | cons d more =>
      rw [List.forall_mem_cons] at hfraction
      exact .fraction hc hdigits hfraction.1 hfraction.2 hstops

end Piece

/-! ### One token -/

/-- A number that is written with its own digits, and the other tokens, are written as their
kinds are. -/
theorem Token.Spelled.written {t : Token} (h : t.Spelled) : t.Written := by
  cases h with
  | mark hname => exact ⟨congrArg String.toList hname ▸ .mark, rfl⟩
  | keyword hname => exact ⟨congrArg String.toList hname ▸ .keyword, rfl⟩
  | @name c letters lexeme line hc hpart hname hfree =>
      have hspells : Kind.identifier.Spells (c :: letters) := by
        refine .name hc hpart fun k hk => hfree k ?_
        rw [hname, ← hk, String.ofList_toList]
      exact (written_of_name (t := ⟨_, lexeme, none, line⟩) hname hspells rfl).2
  -- A number is written with its shortest digits, and these name it and no other one.
  | @number x lexeme line hx hname =>
      obtain ⟨whole, fraction, hreads⟩ := Number.text_reads hx
      have htext : lexeme.name.toList = (Piece.number whole fraction).spelling :=
        (congrArg String.toList hname).trans hreads.text
      constructor
      · exact htext ▸ .number hreads.nonempty hreads.digits
      · show _ = (Number.read? lexeme.name.toList).map Literal.number
        rw [htext, Number.read?_digits hreads.nonempty hreads.digits, hreads.magnitude,
          Binary64.toFloat_toBits]
        rfl
  | @string body lexeme line hbody hname =>
      refine (written_of_name (t := ⟨_, lexeme, _, line⟩) hname (.string hbody) ?_).2
      simp [Kind.constant?]

namespace Scanner

/-- A spelling is a piece of source, which is read as a token of this kind. -/
theorem exists_piece {kind : Kind} {text : List Char} (h : kind.Spells text) :
    ∃ piece : Piece, piece.spelling = text ∧
      (∀ rest, kind.EndsBefore rest → Piece.Cut piece rest) ∧
      ∀ l : Lexicon, l.Sound → ∀ line, ∃ u, (read l line piece).1 = .token u ∧ u.kind = kind := by
  cases kind with
  | mark m =>
      cases h
      exact ⟨.mark m, rfl, fun _ h => .of_mark h, fun l _ line => ⟨_, rfl, rfl⟩⟩
  | keyword k =>
      cases h
      obtain ⟨c, letters, hletters, hc, hpart⟩ := k.letters
      refine ⟨.word (c :: letters), hletters.symm, fun _ h => .of_word hc hpart h, ?_⟩
      intro l hl line
      exact ⟨_, rfl, ((kind_word hl line hc hpart).1.keyword_iff k).2 hletters.symm⟩
  | identifier =>
      cases h with
      | @name c letters hc hpart hfree =>
          refine ⟨.word (c :: letters), rfl, fun _ h => .of_word hc hpart h, ?_⟩
          intro l hl line
          have hspells := (kind_word hl line hc hpart).1
          obtain hkind | ⟨k, hkind⟩ := hspells.word_cases hc
          · exact ⟨_, rfl, hkind⟩
          · exact absurd ((hspells.keyword_iff k).1 hkind).symm (hfree k)
  | number =>
      obtain ⟨whole, fraction, rfl, hwhole, hdigits⟩ := h.exists_number
      exact ⟨.number whole fraction, rfl, fun _ h => .of_digits hwhole hdigits h,
        fun l _ line => ⟨_, rfl, rfl⟩⟩
  | string =>
      cases h with
      | @string body hbody =>
          -- The quotes end the text, whatever follows.
          exact ⟨.quoted body, rfl, fun _ _ => .quoted (Piece.forall_bne_iff.2 hbody),
            fun l _ line => ⟨_, rfl, rfl⟩⟩
  | eof => cases h

/-- A token is a piece of source from which it can be read. -/
theorem exists_piece_of_written {t : Token} (h : t.Written) : ∃ piece : Piece,
    piece.spelling = t.name.toList ∧ (∀ rest, t.kind.EndsBefore rest → Piece.Cut piece rest) ∧
      ∀ l : Lexicon, l.Sound → ∀ line,
        ∃ u, (read l line piece).1 = .token u ∧ t.Same u ∧ u.line = line := by
  obtain ⟨piece, hspelling, hcut, hread⟩ := exists_piece h.spelling
  refine ⟨piece, hspelling, hcut, fun l hl line => ?_⟩
  obtain ⟨u, hu, hkind⟩ := hread l hl line
  obtain ⟨⟨htext, hwritten⟩, hline⟩ := written_of_read (hcut [] nofun) hl hu
  rw [hspelling] at htext
  refine ⟨u, hu, ⟨hkind.symm, String.toList_inj.1 htext.symm, ?_⟩, hline⟩
  rw [h.constant, hwritten.constant, hkind, htext]

/-- A piece that may stand where it does is what the scanner takes. -/
theorem step_of_cut {piece : Piece} {rest : List Char} (h : Piece.Cut piece rest) (line : Nat)
    (l : Lexicon) :
    let ending := line + Piece.newlines piece.spelling
    step ⟨piece.spelling ++ rest, line, l⟩ =
      some ((read l ending piece).1, ⟨rest, ending, (read l ending piece).2⟩) := by
  obtain ⟨c, letters, hletters⟩ := List.exists_cons_of_ne_nil h.spelling_ne_nil
  have hsource : piece.spelling ++ rest = c :: (letters ++ rest) := by
    rw [hletters, List.cons_append]
  dsimp only
  rw [hsource, step_cons, h.first_eq hsource]

/-! ### All tokens -/

open Piece (newlines)

/-- Nothing is read from a gap. -/
theorem reads_gap (gap : Gap) (rest : List Char) (line : Nat) (l : Lexicon) :
    ∃ line', Reads ⟨gap.text ++ rest, line, l⟩ [] ⟨rest, line', l⟩ := by
  have hblank : ∀ c, Piece.isGap c = true →
      ∃ line', Reads ⟨c :: rest, line, l⟩ [] ⟨rest, line', l⟩ :=
    fun c hc => ⟨_, .skipped (step_of_cut (.blank hc) line l) .done⟩
  have hnewline : ∀ line, Reads ⟨'\n' :: rest, line, l⟩ [] ⟨rest, line + 1, l⟩ :=
    fun line => .skipped (step_of_cut .newline line l) .done
  cases gap with
  | space => exact hblank ' ' (by decide)
  | tab => exact hblank '\t' (by decide)
  | carriageReturn => exact hblank '\r' (by decide)
  | newline => exact ⟨_, hnewline line⟩
  | comment body inLine =>
      -- The comment is one piece, and the end of its line is another one.
      have hcut : Piece.Cut (.comment body) ('\n' :: rest) :=
        .comment (Piece.forall_bne_iff.2 inLine) (by simp)
      have hsource : (Gap.comment body inLine).text ++ rest =
          (Piece.comment body).spelling ++ '\n' :: rest := by
        simp [Gap.text, Piece.spelling]
      rw [hsource]
      exact ⟨_, .skipped (step_of_cut hcut line l) (hnewline _)⟩

/-- Nothing is read from a layout. Its line ends are counted. -/
theorem reads_layout (layout : Layout) (rest : List Char) (line : Nat) (l : Lexicon) :
    Reads ⟨layout.text ++ rest, line, l⟩ [] ⟨rest, line + newlines layout.text, l⟩ := by
  have hreads : ∃ line', Reads ⟨layout.text ++ rest, line, l⟩ [] ⟨rest, line', l⟩ := by
    induction layout generalizing line with
    | nil => exact ⟨line, .done⟩
    | cons gap layout ih =>
        obtain ⟨line₁, hgap⟩ := reads_gap gap (Layout.text layout ++ rest) line l
        obtain ⟨line₂, hlater⟩ := ih line₁
        refine ⟨line₂, ?_⟩
        have hsource : Layout.text (gap :: layout) ++ rest =
            gap.text ++ (Layout.text layout ++ rest) := List.append_assoc _ _ _
        rw [hsource]
        exact hgap.append hlater
  obtain ⟨line', hreads⟩ := hreads
  have hline : line' + newlines rest = line + newlines (layout.text ++ rest) := hreads.line
  rw [Piece.newlines_append, ← Nat.add_assoc, Nat.add_right_cancel_iff] at hline
  exact hline ▸ hreads

/-- A token ends where a layout starts that may stand behind it. -/
theorem endsBefore_layout {kind : Kind} {layout : Layout} (hnonempty : layout ≠ [])
    (hslash : kind = .mark .slash → ∀ gap ∈ layout.head?, gap.isComment = false)
    (rest : List Char) : kind.EndsBefore (layout.text ++ rest) := by
  obtain ⟨gap, more, rfl⟩ := List.exists_cons_of_ne_nil hnonempty
  intro c hc
  cases gap with
  | comment body inLine =>
      cases hc
      exact .inr ⟨rfl, fun hkind => absurd (hslash hkind _ rfl) (by simp [Gap.isComment])⟩
  | _ =>
      cases hc
      exact .inl (by simp)

/-- Tokens that are kept apart are read one by one, behind any text. -/
theorem reads_items {items : List (Token × Layout)} (hwritten : ∀ item ∈ items, item.1.Written)
    (hapart : Separated items) (before : List Char) {l : Lexicon} (hl : l.Sound) :
    ∃ us s, Reads ⟨render [] items, 1 + newlines before, l⟩ us s ∧ s.rest = [] ∧
      Placed before items us := by
  -- On the tokens; each of them may bring new symbols into the lexicon.
  induction items generalizing before l with
  | nil => exact ⟨[], _, .done, rfl, .nil⟩
  | cons item items ih =>
      obtain ⟨t, layout⟩ := item
      obtain ⟨piece, hspelling, hcut, hread⟩ :=
        exists_piece_of_written (hwritten _ List.mem_cons_self)
      have hends : t.kind.EndsBefore (Layout.text layout ++ render [] items) := by
        by_cases hlayout : layout = []
        · -- Then the token is the last one.
          cases items with
          | nil =>
              subst hlayout
              exact nofun
          | cons next items => exact absurd hlayout hapart.head
        · exact endsBefore_layout hlayout (hapart.slash _ List.mem_cons_self) _
      have hstep := step_of_cut (hcut _ hends) (1 + newlines before) l
      dsimp only at hstep
      rw [hspelling, Nat.add_assoc, ← Piece.newlines_append] at hstep
      obtain ⟨u, hu, hsame, hline⟩ := hread l hl (1 + newlines (before ++ t.name.toList))
      rw [hu] at hstep
      have hgap := reads_layout layout (render [] items) (1 + newlines (before ++ t.name.toList))
        (read l (1 + newlines (before ++ t.name.toList)) piece).2
      rw [Nat.add_assoc, ← Piece.newlines_append] at hgap
      obtain ⟨us, s, hlater, hend, hplaced⟩ :=
        ih (fun item hitem => hwritten item (List.mem_cons_of_mem _ hitem)) hapart.tail
          (before ++ t.name.toList ++ Layout.text layout) (read_sound hl _ piece)
      refine ⟨u :: us, s, ?_, hend, .cons hsame hline hplaced⟩
      rw [render_cons]
      exact .token hstep (hgap.append hlater)

/-- The same with a layout in front of all of them, from the start of a source. -/
theorem reads_render {l : Lexicon} (hl : l.Sound) (lead : Layout)
    {items : List (Token × Layout)} (hwritten : ∀ item ∈ items, item.1.Written)
    (hapart : Separated items) :
    ∃ us l', Reads ⟨render lead items, 1, l⟩ us ⟨[], 1 + newlines (render lead items), l'⟩ ∧
      Placed lead.text items us := by
  obtain ⟨us, ⟨rest, line, l'⟩, hreads, rfl, hplaced⟩ := reads_items hwritten hapart lead.text hl
  have hall : Reads ⟨render lead items, 1, l⟩ us ⟨[], line, l'⟩ :=
    (reads_layout lead (render [] items) 1 l).append hreads
  have hline : line = 1 + newlines (render lead items) := hall.line
  exact ⟨us, l', hline ▸ hall, hplaced⟩

end Scanner

/-- A source that is read to its end. -/
theorem scan_of_reads {source : List Char} {l l' : Lexicon} {us : List Token} {line : Nat}
    (h : Scanner.Reads ⟨source, 1, l⟩ us ⟨[], line, l'⟩) :
    scan (String.ofList source) l =
      ⟨us ++ [⟨.eof, (l'.intern "").1, none, line⟩], [], (l'.intern "").2⟩ := by
  unfold scan Scanner.ofSource
  rw [String.toList_ofList]
  exact Scan.ofScanner_reads_nil h

/-- What a scan gives that reads back the tokens `ts`: tokens that show the same and the end
token behind them, all with shared symbols but those that carry a constant. -/
structure Scan.ReadsBack (ts : List Token) (x : Scan) (us : List Token) (final : Token) :
    Prop where
  errors : x.errors = []
  tokens : x.tokens = us ++ [final]
  same : List.Forall₂ Token.Same ts us
  inner : ∀ u ∈ us, u.kind ≠ .eof
  final : final.kind = .eof
  shared : ∀ t ∈ x.tokens, t.kind.isConstant = false → t.lexeme ∈ x.lexicon.interned

/-- Tokens that are written with layouts between them are read back. -/
theorem scan_render {l : Lexicon} (hl : l.Sound) (lead : Layout) {items : List (Token × Layout)}
    (hspelled : ∀ item ∈ items, item.1.Spelled) (hapart : Separated items) :
    ∃ us final,
      (scan (String.ofList (render lead items)) l).ReadsBack (items.map (·.1)) us final := by
  obtain ⟨us, l', hreads, hplaced⟩ :=
    Scanner.reads_render hl lead (fun item hitem => (hspelled item hitem).written) hapart
  rw [scan_of_reads hreads]
  refine ⟨us, _, rfl, rfl, hplaced.same, hreads.inner, rfl, fun t ht hkind => ?_⟩
  rcases List.mem_append.1 ht with ht | ht
  · exact (Lexicon.intern_grows l' "").interned (hreads.shared t ht hkind)
  · cases List.mem_singleton.1 ht
    exact Lexicon.mem_intern l' ""

/-- **Scanning undoes spelling.** Tokens of all kinds are written with layouts in front of them,
between them and behind them. The layouts between them are not empty, and none behind a slash
starts with a comment. Then the scan reports no error and gives these tokens in this order, with
their kinds, their spellings and their constants, and one end token behind them. Each is on the
line on which its own text ends. With fewer than `2 ^ 32 - 1` line ends in the source, all these
lines fit in 32 bits. -/
theorem spelled_tokens_scanned {l : Lexicon} (hl : l.Sound) (lead : Layout)
    {items : List (Token × Layout)} (hwritten : ∀ item ∈ items, item.1.Written)
    (hapart : Separated items) :
    ∃ (us : List Token) (final : Token),
      (scan (String.ofList (render lead items)) l).errors = [] ∧
      (scan (String.ofList (render lead items)) l).tokens = us ++ [final] ∧
      List.Forall₂ Token.Same (items.map (·.1)) us ∧
      (∀ (early late : List (Token × Layout)) (t : Token) (layout : Layout),
        items = early ++ (t, layout) :: late →
        ∃ u, us[early.length]? = some u ∧ t.Same u ∧
          u.line = 1 + Piece.newlines (render lead early ++ t.name.toList)) ∧
      (final.kind = .eof ∧ final.name = "" ∧ final.literal = none ∧
        final.line = 1 + Piece.newlines (render lead items)) ∧
      (Piece.newlines (render lead items) < 2 ^ 32 - 1 →
        ∀ u ∈ us ++ [final], u.line < 2 ^ 32) := by
  obtain ⟨us, l', hreads, hplaced⟩ := Scanner.reads_render hl lead hwritten hapart
  have hlast := (scan_endsBy (String.ofList (render lead items)) l).tokens
  rw [scan_of_reads hreads] at hlast ⊢
  rw [String.toList_ofList] at hlast
  refine ⟨us, _, rfl, rfl, hplaced.same, fun early late t layout hsplit => ?_,
    -- The lines of tokens come from the spelling, and the bound from all that a scanner emits.
    ⟨rfl, Lexicon.name_intern l' "", rfl, rfl⟩, fun hfew u hu => ?_⟩
  · exact hplaced.of_split hsplit
  · have hline := hlast u hu
    omega

/-- A token as it is written, on its own. -/
def Kind.token (kind : Kind) (text : String) : Token :=
  ⟨kind, ⟨0, 0, text⟩, kind.constant? text.toList, 1⟩

/-- A token that is spelled as its kind is, is written so. -/
theorem Kind.Spells.written {kind : Kind} {text : List Char} (h : kind.Spells text) :
    (kind.token (String.ofList text)).Written := by
  refine (Token.written_of_name rfl h ?_).2
  rw [token, String.toList_ofList]

/-- A number, a slash with a layout behind it, and a token on the right. -/
def quotient (behind : Layout) (right : Token) : List (Token × Layout) :=
  [(Kind.number.token (String.ofList ['1', '.', '5', '0']), [.space]),
    ((Kind.mark .slash).token "/", behind), (right, [])]

/-- All three tokens are written as their kinds are. -/
theorem written_quotient (behind : Layout) {right : Token} (h : right.Written) :
    ∀ item ∈ quotient behind right, item.1.Written := by
  have hnumber : Kind.number.Spells (['1'] ++ '.' :: ['5', '0']) :=
    .fraction (by decide) (by decide) (List.all_eq_true.1 (by decide))
  simp only [quotient, List.forall_mem_cons]
  exact ⟨hnumber.written, ⟨.mark, rfl⟩, h, List.forall_mem_nil _⟩

/-- Behind a slash, a comment may stand on a line of its own. A text may hold slashes and line
ends, and is on the line of its second quote. -/
theorem spelled_tokens_scanned_quotient :
    let read := scan "1.50 /\n// by\n\"a//\nb\"" (.new 0)
    read.errors = [] ∧ ∃ u, read.tokens[2]? = some u ∧ u.kind = .string ∧ u.line = 4 := by
  intro read
  let text := '"' :: (['a', '/', '/', '\n', 'b'] ++ ['"'])
  have htext : Kind.string.Spells text := .string (by decide)
  let items := quotient [.newline, .comment [' ', 'b', 'y'] (by decide)]
    (Kind.string.token (String.ofList text))
  have hsource : String.ofList (render [] items) = "1.50 /\n// by\n\"a//\nb\"" := by
    decide +kernel
  have hapart : Separated items :=
    ⟨by simp [items, quotient], by simp [items, quotient, Kind.token, Gap.isComment]⟩
  obtain ⟨us, final, herrors, htokens, -, hlines, -⟩ := spelled_tokens_scanned
    (Lexicon.sound_new 0) [] (written_quotient _ htext.written) hapart
  rw [hsource] at herrors htokens
  obtain ⟨u, hu, hsame, hline⟩ := hlines (items.take 2) [] _ [] rfl
  have hu : us[2]? = some u := hu
  refine ⟨herrors, u, ?_, hsame.kind.symm, ?_⟩
  · rw [htokens, List.getElem?_append_left (List.getElem?_eq_some_iff.1 hu).1]
    exact hu
  · rw [hline]
    decide +kernel

/-- Right behind a slash a comment swallows the slash: of three slashes, the first two start the
comment. So layouts that are not empty do not always keep tokens apart. -/
theorem slash_lost_before_comment : ¬ ∀ (l : Lexicon) (lead : Layout)
    (items : List (Token × Layout)), l.Sound → (∀ item ∈ items, item.1.Written) →
      (∀ item ∈ items.dropLast, item.2 ≠ []) → ∃ (us : List Token) (final : Token),
        (scan (String.ofList (render lead items)) l).errors = [] ∧
        (scan (String.ofList (render lead items)) l).tokens = us ++ [final] ∧
        List.Forall₂ Token.Same (items.map (·.1)) us := by
  intro h
  have hdivisor : Kind.number.Spells ['2'] := .whole (by decide) (List.all_eq_true.1 (by decide))
  let items := quotient [.comment [' ', 'x'] (by decide)]
    (Kind.number.token (String.ofList ['2']))
  have hsource : String.ofList (render [] items) = "1.50 /// x\n2" := by decide +kernel
  obtain ⟨us, final, -, htokens, hsame⟩ := h (Lexicon.new 0) [] items (Lexicon.sound_new 0)
    (written_quotient _ hdivisor.written) (by simp [items, quotient])
  rw [hsource] at htokens
  -- There would be three tokens and the end, but the slash is missing.
  have hcount : (scan "1.50 /// x\n2" (.new 0)).tokens.length = 3 := by decide +kernel
  rw [htokens, List.length_append, ← hsame.length_eq] at hcount
  cases hcount

end Scriptlet
