import Scriptlet.Proofs.Lexical.Layout
import Scriptlet.Proofs.Parser.Join
import Scriptlet.Proofs.Parser.Shape

/-!
# `Scriptlet.Proofs.Parser.Print`: the tokens that a tree is written with

`Stmt.spell` writes a tree as tokens: those that the tree keeps, and the usual ones for all that
it does not keep. No parentheses are added, so not every tree is spelled by its tokens. A tree is
if its parts stand where they may (`program_spellAll`), and other trees are spelled by no tokens
at all (`exists_program_iff`).

`Printable` asks for this, and that each token is spelled as its kind is.
-/

set_option autoImplicit false

namespace Scriptlet

open Grammar

/-! ### Trees as tokens -/

/-- A mark as it is written. -/
def Mark.token (m : Mark) : Token := ⟨.mark m, ⟨0, 0, m.text⟩, none, 0⟩

/-- A reserved word as it is written. -/
def Keyword.token (k : Keyword) : Token := ⟨.keyword k, ⟨0, 0, k.text⟩, none, 0⟩

/-- A constant as it is written: numbers in digits, and texts in quotes. -/
def Literal.token : Literal → Token
  | nil => Keyword.nilWord.token
  | bool true => Keyword.trueWord.token
  | bool false => Keyword.falseWord.token
  | number x => ⟨.number, ⟨0, 0, Number.text x⟩, some (.number x), 0⟩
  | string s =>
    ⟨.string, ⟨0, 0, String.ofList ('"' :: (s.toList ++ ['"']))⟩, some (.string s), 0⟩

/-- Items with a comma between each two of them. -/
def withCommas : List (List Token) → List Token
  | [] => []
  | [ts] => ts
  | ts :: us :: rest => ts ++ Mark.comma.token :: withCommas (us :: rest)

mutual

/-- The tokens of an expression. -/
def Expr.spell : Expr → List Token
  | .literal value => [value.token]
  | .group inner => Mark.leftParen.token :: (inner.spell ++ [Mark.rightParen.token])
  | .unary op operand => op :: operand.spell
  | .binary left op right | .logical left op right => left.spell ++ op :: right.spell
  | .get name => [name]
  | .set name value => name :: Mark.equal.token :: value.spell
  | .call callee paren args =>
    callee.spell ++ Mark.leftParen.token :: (withCommas (Expr.spellAll args) ++ [paren])

/-- The tokens of several expressions, one by one. -/
def Expr.spellAll : List Expr → List (List Token)
  | [] => []
  | e :: es => e.spell :: Expr.spellAll es

end

/-- The tokens of an expression that may be missing. -/
def Expr.spellOption : Option Expr → List Token
  | none => []
  | some e => e.spell

mutual

/-- The tokens of a statement. -/
def Stmt.spell : Stmt → List Token
  | .expression value => value.spell ++ [Mark.semicolon.token]
  | .declare name none => [Keyword.varWord.token, name, Mark.semicolon.token]
  | .declare name (some init) => Keyword.varWord.token :: name :: Mark.equal.token ::
      (init.spell ++ [Mark.semicolon.token])
  | .block body => Mark.leftBrace.token :: (Stmt.spellAll body ++ [Mark.rightBrace.token])
  | .branch condition yes no => Keyword.ifWord.token :: Mark.leftParen.token ::
      (condition.spell ++ Mark.rightParen.token :: (yes.spell ++ Stmt.spellElse no))
  | .loop condition body => Keyword.whileWord.token :: Mark.leftParen.token ::
      (condition.spell ++ Mark.rightParen.token :: body.spell)
  | .function name params body => Keyword.funWord.token :: name :: Mark.leftParen.token ::
      (withCommas (params.map fun p => [p]) ++ Mark.rightParen.token :: Mark.leftBrace.token ::
        (Stmt.spellAll body ++ [Mark.rightBrace.token]))
  | .giveBack word result => word :: (Expr.spellOption result ++ [Mark.semicolon.token])

/-- The tokens of what is to be done otherwise, if there is anything. -/
def Stmt.spellElse : Option Stmt → List Token
  | none => []
  | some s => Keyword.elseWord.token :: s.spell

/-- The tokens of statements in a row. -/
def Stmt.spellAll : List Stmt → List Token
  | [] => []
  | s :: ss => s.spell ++ Stmt.spellAll ss

end

/-! ### Trees that can be written -/

/-- The program can be written: its parts stand where the grammar has them, and each of its
tokens is spelled as its kind is. -/
structure Printable (p : Program) : Prop where
  shape : ∀ s ∈ p, s.IsDeclaration
  spelling : ∀ t ∈ Stmt.spellAll p, t.Spelled

/-! ### The tokens spell the tree -/

/-- Writing commas between items gives a list with commas. -/
theorem commaList_withCommas : ∀ items : List (List Token), CommaList items (withCommas items)
  | [] => .none
  | [ts] => .one ts
  | _ :: us :: rest => .more rfl (commaList_withCommas (us :: rest))

/-- The tokens of several expressions are those of each of them. -/
theorem Expr.spellAll_eq_map : ∀ es : List Expr, Expr.spellAll es = es.map Expr.spell
  | [] => rfl
  | e :: es => congrArg (e.spell :: ·) (spellAll_eq_map es)

/-- A constant is spelled by its token. -/
theorem Literal.derives (value : Literal) : Derives .primary [value.token] (.literal value) := by
  cases value with
  | nil => exact .nothing rfl
  | bool b =>
      cases b with
      | true => exact .truth rfl
      | false => exact .falsehood rfl
  | number x => exact .constant (.inl rfl)
  | string s => exact .constant (.inr rfl)

/-- An expression that may stand on a rung is spelled there by its own tokens. -/
theorem Expr.Stands.derives {r : Rung} {e : Expr} (h : e.Stands r) : Derives r e.spell e := by
  induction h with
  | literal => exact Literal.derives _
  | name ht => exact .name ht
  | group _ ih => exact .group rfl ih rfl
  | @call f paren args _ hparen _ hsize ihf ihargs =>
      -- Each argument goes with its own tokens.
      let spelled := args.map fun arg => (arg.spell, arg)
      have htokens : spelled.map (·.1) = Expr.spellAll args := by
        rw [spellAll_eq_map, List.map_map]
        rfl
      have htrees : spelled.map (·.2) = args := by
        rw [List.map_map]
        exact List.map_id _
      have hcommas := commaList_withCommas (spelled.map (·.1))
      have hall : ∀ arg ∈ spelled, Derives .assignment arg.1 arg.2 := by
        intro arg harg
        obtain ⟨e, he, rfl⟩ := List.mem_map.1 harg
        exact ihargs e he
      have hopening : Mark.leftParen.token.kind = .mark .leftParen := rfl
      have hcall := Derives.call ihf hopening hcommas hall (by simpa [spelled] using hsize) hparen
      rwa [htokens, htrees] at hcall
  | unary hop _ ih => exact .unary hop ih
  | logical hr _ hop _ iha ihb => exact .logical hr iha hop ihb
  | binary hr _ hop _ iha ihb => exact .binary hr iha hop ihb
  | assign hname _ ih => exact .assign hname rfl ih
  | lift _ ih => exact .lift ih

/-- A clause is spelled by its expression, and by nothing if it is missing. -/
theorem Expr.clause_spellOption {e : Option Expr} (h : ∀ x ∈ e, x.Stands .assignment) :
    Clause (Expr.spellOption e) e := by
  cases e with
  | none => exact .absent
  | some e => exact .present (h e rfl).derives

/-- If the statement ends with an `if` that has no `else`, none follows. -/
def Stmt.Calm (s : Stmt) (rest : List Token) : Prop :=
  s.endsOpen = true → ¬ StartsWith [.keyword .elseWord] rest

/-- Declarations in a row are not in front of `else`, since no other one starts with it. -/
theorem Stmt.declarations_spellAll {rest : List Token}
    (hrest : ¬ StartsWith [.keyword .elseWord] rest) {ss : List Stmt}
    (h : ∀ s ∈ ss, ∀ rest, s.Calm rest → Declaration s.spell rest s) :
    Declarations (Stmt.spellAll ss) rest ss := by
  induction ss with
  | nil => exact .nil
  | cons s ss ih =>
      obtain ⟨hs, hss⟩ := List.forall_mem_cons.1 h
      -- What follows the first one are the others, or `rest` if there are none.
      have hlater := ih hss
      exact .cons (hs _ fun _ => hlater.calm hrest) hlater

mutual

/-- A tree that may stand as a declaration is spelled by its tokens, in front of anything that does
not take an `else` from it. -/
theorem Stmt.IsDeclaration.derives : ∀ {s : Stmt}, s.IsDeclaration → ∀ {rest : List Token},
    s.Calm rest → Declaration s.spell rest s
  | _, .function hname hnames hsize hbody, rest, _ => by
    have hclosed : ¬ StartsWith [.keyword .elseWord] (Mark.rightBrace.token :: rest) := by
      simp [Mark.token]
    have hdeclarations := Stmt.declarations_spellAll hclosed
      fun s hs _ hcalm => (hbody s hs).derives hcalm
    exact .function rfl hname rfl (commaList_withCommas _) hnames hsize rfl rfl hdeclarations rfl
  | _, @Stmt.IsDeclaration.binding name init hname hinit, _, _ => by
    cases init with
    | none => exact .binding rfl (.bare hname rfl)
    | some e => exact .binding rfl (.valued hname rfl (hinit e rfl).derives rfl)
  | _, .statement hs, _, hcalm => .statement (hs.derives hcalm)

/-- A tree that may stand as a statement is spelled by its tokens in the same way. A branch in front
of `else` ends closed, so this `else` is not taken by it. -/
theorem Stmt.IsStatement.derives : ∀ {s : Stmt}, s.IsStatement → ∀ {rest : List Token},
    s.Calm rest → Statement s.spell rest s
  | _, .expression he, _, _ => .expression he.derives rfl
  | _, .block hbody, rest, _ => by
    have hclosed : ¬ StartsWith [.keyword .elseWord] (Mark.rightBrace.token :: rest) := by
      simp [Mark.token]
    have hdeclarations := Stmt.declarations_spellAll hclosed
      fun s hs _ hcalm => (hbody s hs).derives hcalm
    exact .block rfl hdeclarations rfl
  | _, .ifThen hc hyes, rest, hcalm => by
    have hnone : ¬ StartsWith [.keyword .elseWord] rest := hcalm rfl
    rw [Stmt.spell, Stmt.spellElse, List.append_nil]
    exact .ifThen rfl rfl hc.derives rfl (hyes.derives fun _ => hnone) hnone
  | _, @Stmt.IsStatement.ifElse _ yes _ hc hyes hclosed hno, rest, hcalm => by
    -- The first branch is in front of `else`, but it does not end with an open `if`.
    have hfits : ∀ later, yes.Calm later := fun _ hopen => absurd hopen (by simp [hclosed])
    exact .ifElse rfl rfl hc.derives rfl (hyes.derives (hfits _)) rfl (hno.derives hcalm)
  | _, .loop hc hbody, _, hcalm => .loop rfl rfl hc.derives rfl (hbody.derives hcalm)
  | _, .giveBack hword hresult, _, _ => .giveBack hword (Expr.clause_spellOption hresult) rfl

end

/-- The tokens that a program is written with spell it. -/
theorem program_spellAll {p : Program} (h : ∀ s ∈ p, s.IsDeclaration) {final : Token}
    (hfinal : final.kind = .eof) : Grammar.Program (Stmt.spellAll p ++ [final]) p := by
  have hend : ¬ StartsWith [.keyword .elseWord] [final] := by simp [hfinal]
  exact .intro (Stmt.declarations_spellAll hend fun s hs _ hcalm => (h s hs).derives hcalm) hfinal

/-- The shapes of programs that can be written are those that the grammar gives: there are tokens
that spell a program exactly when its parts stand where they may. -/
theorem exists_program_iff {p : Program} :
    (∃ ts, Grammar.Program ts p) ↔ ∀ s ∈ p, s.IsDeclaration := by
  constructor
  · rintro ⟨_, hp, -⟩
    exact hp.isDeclaration
  · intro h
    have hfinal : (⟨.eof, ⟨0, 0, ""⟩, none, 0⟩ : Token).kind = .eof := rfl
    exact ⟨_, program_spellAll h hfinal⟩

end Scriptlet
