import Scriptlet.Proofs.Parser.Alike
import Scriptlet.Proofs.Parser.Print
import Scriptlet.Proofs.Parser.Recast
import Scriptlet.Tree.Analysis

/-!
# `Scriptlet.Proofs.Parser.RoundTrip`: a program reads back from its text

`printed_program_reads_back`: a program that is written with any layout that keeps its tokens
apart is scanned and parsed without an error, and what comes out is the program. Only the lines
of its tokens are others, and the numbers of its symbols unless they are those that the lexicon
has for these names.

A scan gives the written tokens on other lines and with other symbols. The program is followed
through both changes: `Program.mapTokens` gives the tokens of the tree the symbols that the scan
gives them, and lets go of all lines. What is left are two derivations of the same tokens, and
no tokens spell two programs.
-/

set_option autoImplicit false

namespace Scriptlet

open Grammar

/-! ### What is left of a token -/

/-- A token without its line. -/
def Token.unplaced (t : Token) : Token := { t with line := 0 }

/-- A token without its line and without the number of its symbol. -/
def Token.look (t : Token) : Token := t.bare.unplaced

/-- A token without its line, and with the symbol that a lexicon has for its spelling. -/
def Lexicon.respell (l : Lexicon) (t : Token) : Token :=
  { t with lexeme := (l.intern t.name).1, line := 0 }

/-- Lines and numbers of symbols play no part in what tokens spell. -/
theorem Token.faithful_look : Faithful Token.look := ⟨fun _ => rfl, fun _ => rfl⟩

/-- Neither do the symbols themselves, if each is replaced by the one of its own name. -/
theorem Lexicon.faithful_respell (l : Lexicon) : Faithful l.respell :=
  ⟨fun _ => rfl, fun _ => rfl⟩

/-- A symbol that the lexicon has already handed out is the one that it has for its name. -/
theorem Lexicon.Knows.respell_eq {words : List Keyword} {l : Lexicon} (h : l.Knows words)
    {t : Token} (ht : t.lexeme ∈ l.interned) : l.respell t = t.unplaced := by
  have hsymbol : (l.intern t.name).1 = t.lexeme := h.intern_eq ht
  simp only [respell, Token.unplaced, hsymbol]

/-- Tokens that are the same stay so under a change that looks at nothing else. -/
theorem map_eq_of_same {f : Token → Token} (hf : ∀ {t u : Token}, t.Same u → f t = f u)
    {ts us : List Token} (h : List.Forall₂ Token.Same ts us) : ts.map f = us.map f := by
  induction h with
  | nil => rfl
  | cons htoken _ ih => simp only [List.map_cons, hf htoken, ih]

/-- The same tokens on other lines have one look. -/
theorem Token.Same.look_eq {t u : Token} (h : t.Same u) : t.look = u.look := by
  simp only [look, bare, unplaced, h.kind, h.name, h.literal]

/-- The same tokens on other lines are respelled alike. -/
theorem Token.Same.respell_eq (l : Lexicon) {t u : Token} (h : t.Same u) :
    l.respell t = l.respell u := by
  simp only [Lexicon.respell, h.kind, h.name, h.literal]

/-! ### Parsing on other lines -/

/-- All lines correspond to each other, and each symbol to itself. -/
def Likeness.anyLine : Likeness where
  Line _ _ := True
  Name a b := a = b
  beq_eq := by
    rintro _ _ _ _ rfl rfl
    rfl

/-- Whether there are errors does not depend on the lines of tokens. -/
theorem parse_errors_of_respell {l : Lexicon} (hl : l.Sound) {ts : List Token}
    (hshared : ∀ t ∈ ts, t.kind.isConstant = false → t.lexeme ∈ l.interned)
    (h : (parse (ts.map l.respell)).errors = []) : (parse ts).errors = [] := by
  have halike : List.Forall₂ (Token.Alike .anyLine) ts (ts.map l.respell) := by
    -- A name has the lexicon's symbol already, so only its line is new.
    refine List.forall₂_map_right_iff.2 (List.forall₂_same.2 fun t ht => ?_)
    refine ⟨rfl, (Lexicon.name_intern l t.name).symm, rfl, trivial, fun hkind => ?_⟩
    have hrespell := hl.respell_eq (hshared t ht (congrArg Kind.isConstant hkind))
    exact (congrArg Token.lexeme hrespell).symm
  have herrors := (parse_alike halike).2
  rw [h] at herrors
  exact List.forall₂_nil_right_iff.1 herrors

/-- Changed tokens spell one program at most. -/
theorem program_eq_of_mapTokens {f g h : Token → Token} (hf : Faithful f) {ts us : List Token}
    {p q : Program} (hp : Grammar.Program ts p) (hq : Grammar.Program us q)
    (heq : ts.map f = us.map f) (hg : Agree f g ts) (hh : Agree f h us) :
    Stmt.mapTokensAll g p = Stmt.mapTokensAll h q := by
  have hparse := parse_of_program (hp.mapTokens hf hg)
  rw [heq, parse_of_program (hq.mapTokens hf hh)] at hparse
  exact (congrArg Parse.program hparse).symm

/-- Tokens that are read back are parsed as the program that they were written for. -/
theorem Scan.ReadsBack.parse {ts us : List Token} {x : Scan} {final : Token} {p : Program}
    (h : x.ReadsBack ts us final) (hx : x.lexicon.Sound)
    (hp : Grammar.Program (ts ++ [final]) p) :
    ∃ q, Scriptlet.parse x.tokens = ⟨q, []⟩ ∧
      Stmt.mapTokensAll Token.look q = Stmt.mapTokensAll Token.look p ∧
      Stmt.mapTokensAll Token.unplaced q = Stmt.mapTokensAll x.lexicon.respell p := by
  have hrespell : (ts ++ [final]).map x.lexicon.respell = x.tokens.map x.lexicon.respell := by
    rw [h.tokens, List.map_append, List.map_append, map_eq_of_same (·.respell_eq _) h.same]
  have hlook : (ts ++ [final]).map Token.look = x.tokens.map Token.look := by
    rw [h.tokens, List.map_append, List.map_append, map_eq_of_same (·.look_eq) h.same]
  have hwritten : Grammar.Program (x.tokens.map x.lexicon.respell)
      (Stmt.mapTokensAll x.lexicon.respell p) := by
    rw [← hrespell]
    exact hp.mapTokens (Lexicon.faithful_respell _) fun _ _ _ => rfl
  have herrors : (Scriptlet.parse x.tokens).errors = [] :=
    parse_errors_of_respell hx h.shared (by rw [parse_of_program hwritten])
  have hparse : Scriptlet.parse x.tokens = ⟨(Scriptlet.parse x.tokens).program, []⟩ := by
    rw [← herrors]
  have hread : Grammar.Program x.tokens (Scriptlet.parse x.tokens).program := by
    rw [h.tokens] at hparse ⊢
    exact program_of_parse h.final h.inner hparse
  -- The tokens that were written and those that were scanned become the same twice: without
  -- any symbols, and with the symbols of the scan.
  refine ⟨_, hparse, ?_, ?_⟩
  · exact program_eq_of_mapTokens Token.faithful_look hread hp hlook.symm (fun _ _ _ => rfl)
      fun _ _ _ => rfl
  · exact program_eq_of_mapTokens (Lexicon.faithful_respell _) hread hp hrespell.symm
      (fun t ht hkind => hx.respell_eq (h.shared t ht hkind)) fun _ _ _ => rfl

/-- **A program reads back from its text.** Write a program that the grammar can give: operands
on their rungs or in parentheses, names that are not reserved, texts without double quotes, and
numbers that are finite and have no sign. Put any layout in front of its tokens, behind the last
one, and, not empty, between each two of them, but no comment right behind a slash. Then the
source is scanned and parsed without an error, and the program that comes out is the one that was
written, with all that its tokens show but their lines. If the program's symbols were those of
the lexicon, they still are. -/
theorem printed_program_reads_back {l : Lexicon} (hl : l.Sound) {p : Program} (hp : Printable p)
    (lead : Layout) {items : List (Token × Layout)} (hitems : items.map (·.1) = Stmt.spellAll p)
    (hapart : Separated items) :
    let read := Analysis.ofSource (String.ofList (render lead items)) l
    read.errors = [] ∧
      Stmt.mapTokensAll Token.look read.program = Stmt.mapTokensAll Token.look p ∧
      ((∀ t ∈ Stmt.tokensAll p, t.lexeme ∈ l.interned) →
        Stmt.mapTokensAll Token.unplaced read.program = Stmt.mapTokensAll Token.unplaced p) := by
  have hspelled : ∀ item ∈ items, item.1.Spelled := by
    intro item hitem
    refine hp.spelling item.1 ?_
    rw [← hitems]
    exact List.mem_map_of_mem hitem
  obtain ⟨us, final, hback⟩ := scan_render hl lead hspelled hapart
  have hknown := scan_known (String.ofList (render lead items)) hl
  rw [hitems] at hback
  unfold Analysis.ofSource Analysis.errors
  dsimp only
  generalize scan (String.ofList (render lead items)) l = scanned at *
  obtain ⟨q, hparse, hlook, hunplaced⟩ := hback.parse hknown.sound
    (program_spellAll hp.shape hback.final)
  rw [hback.errors, hparse]
  refine ⟨rfl, hlook, fun hnames => hunplaced.trans ?_⟩
  -- Respelling leaves a symbol alone that the lexicon shares already.
  exact Stmt.mapTokensAll_congr fun t ht =>
    hknown.sound.respell_eq (hknown.grows.interned (hnames t ht))

/-! ### A slash and a comment -/

/-- The slash of a division. -/
def divisionSign (lexeme : Symbol) : Token := ⟨.mark .slash, lexeme, none, 1⟩

/-- The program `1 / 2;`. -/
def division (slash : Symbol) : Program :=
  [.expression (.binary (.literal (.number 1)) (divisionSign slash) (.literal (.number 2)))]

/-- Its tokens with single spaces between them, and a layout behind the slash. -/
def divisionItems (slash : Symbol) (behind : Layout) : List (Token × Layout) :=
  [((Literal.number 1).token, [.space]), (divisionSign slash, behind),
    ((Literal.number 2).token, [.space]), (Mark.semicolon.token, [])]

/-- The division can be written: its shape is that of the grammar, and its four tokens are spelled
as their kinds are. -/
theorem printable_division {slash : Symbol} (hslash : slash.name = "/") :
    Printable (division slash) where
  shape := by
    have hnumber : ∀ x, (Expr.literal (.number x)).Stands .unary :=
      fun x => .lift (.lift .literal)
    have hquotient : (Expr.binary (.literal (.number 1)) (divisionSign slash)
        (.literal (.number 2))).Stands .factor :=
      .binary rfl (.lift (hnumber 1)) (by simp [divisionSign, Rung.operators]) (hnumber 2)
    intro s hs
    cases List.mem_singleton.1 hs
    exact .statement (.expression (.lift (.lift (.lift (.lift (.lift (.lift hquotient)))))))
  spelling := by
    have hone : (1 : Float).toBits.toNat < Binary64.infinity := by decide +kernel
    have htwo : (2 : Float).toBits.toNat < Binary64.infinity := by decide +kernel
    have hall : ∀ t ∈ [(Literal.number 1).token, divisionSign slash, (Literal.number 2).token,
        Mark.semicolon.token], t.Spelled := by
      simp only [List.forall_mem_cons]
      exact ⟨.number hone rfl, .mark hslash, .number htwo rfl, .mark rfl, List.forall_mem_nil _⟩
    exact hall

/-- Behind the slash, a comment may stand on a line of its own. -/
theorem printed_program_reads_back_division :
    let slash := (Lexicon.new 0).intern "/"
    let read := Analysis.ofSource "1 /\n// by\n2 ;" slash.2
    read.errors = [] ∧ Stmt.mapTokensAll Token.unplaced read.program =
      Stmt.mapTokensAll Token.unplaced (division slash.1) := by
  intro slash read
  have hslash : slash.1.name = "/" := Lexicon.name_intern _ _
  let items := divisionItems slash.1 [.newline, .comment [' ', 'b', 'y'] (by decide)]
  have hitems : items.map (·.1) = Stmt.spellAll (division slash.1) := rfl
  have hsource : String.ofList (render [] items) = "1 /\n// by\n2 ;" := by decide +kernel
  have hapart : Separated items :=
    ⟨by simp [items, divisionItems], by simp [items, divisionItems, divisionSign, Gap.isComment,
      Literal.token, Mark.token]⟩
  have hread := printed_program_reads_back ((Lexicon.sound_new 0).intern "/")
    (printable_division hslash) [] hitems hapart
  rw [hsource] at hread
  refine ⟨hread.1, hread.2.2 ?_⟩
  intro t ht
  cases List.mem_singleton.1 ht
  exact Lexicon.mem_intern _ _

/-- Right behind a slash a comment does harm: the first of three slashes already starts it. So
layouts that are not empty do not always keep tokens apart. -/
theorem comment_behind_slash : ¬ ∀ (l : Lexicon) (p : Program) (lead : Layout)
    (items : List (Token × Layout)), l.Sound → Printable p →
      items.map (·.1) = Stmt.spellAll p → (∀ item ∈ items.dropLast, item.2 ≠ []) →
      (Analysis.ofSource (String.ofList (render lead items)) l).errors = [] := by
  intro h
  let items := divisionItems ⟨0, 0, "/"⟩ [.comment [' ', 'x'] (by decide)]
  have hsource : String.ofList (render [] items) = "1 /// x\n2 ;" := by decide +kernel
  have hclean := h (Lexicon.new 0) (division ⟨0, 0, "/"⟩) [] items (Lexicon.sound_new 0)
    (printable_division rfl) rfl (by simp [items, divisionItems])
  rw [hsource] at hclean
  have hcount : (Analysis.ofSource "1 /// x\n2 ;" (Lexicon.new 0)).errors.length = 1 := by
    decide +kernel
  rw [hclean] at hcount
  cases hcount

end Scriptlet
