import Scriptlet.Proofs.Parser.Join

/-!
# `Scriptlet.Proofs.Parser.Prefix`: complete declarations in front of anything

Declarations without an error stay what they are whatever follows them, and what follows them is
parsed as if it stood alone. Only an `else` right behind them could still belong to them.

* `Parser.Gives`: with steps enough, a parser gives a value and reports errors. It is `Yields`
  for parsers that need not be clean, and has the same rule for two parsers in a row.
* `Grammar.Declarations.gives`: derivable declarations are read one by one, and the reply at what
  follows them is passed on.
* `parse_behind_complete`: what this comes to for whole lists.

The grammar decides how far a complete declaration goes (`Declarations.before`). About the tokens
behind it nothing is assumed, so that they may be broken in any way.
-/

set_option autoImplicit false

namespace Scriptlet

namespace Parser

variable {α β : Type}

/-! ### Parsers with steps enough that report errors -/

/-- With steps enough, the parser gives a value and reports these errors on its way. -/
def Gives (p : Nat → Parser α) (c : Cursor) (value : α) (errors : List StaticError)
    (c' : Cursor) : Prop :=
  ∀ᶠ n in Filter.atTop, p n c = .done value errors c'

/-- A parser that gives a value with one step less than it is given gives it. -/
theorem Gives.succ {p : Nat → Parser α} {c c' : Cursor} {v : α} {errors : List StaticError}
    (h : Gives (fun n => p (n + 1)) c v errors c') : Gives p c v errors c' := by
  unfold Gives
  rw [← Filter.map_add_atTop_eq_nat 1]
  exact h

/-- The rule for two parsers in a row: the errors of both are reported. -/
theorem Gives.bind {p : Nat → Parser α} {f : Nat → α → Parser β} {c c₁ c₂ : Cursor} {v : α}
    {w : β} {early late : List StaticError} (hp : Gives p c v early c₁)
    (hf : Gives (fun n => f n v) c₁ w late c₂) :
    Gives (fun n => p n >>= f n) c w (early ++ late) c₂ := by
  filter_upwards [hp, hf] with n hp hf
  show Parser.bind (p n) (f n) c = .done w (early ++ late) c₂
  unfold Parser.bind
  rw [hp]
  show (f n v c₁).after early = .done w (early ++ late) c₂
  rw [hf]
  rfl

/-- Behind a clean parser only the second one has errors to report. -/
theorem Yields.gives {p : Nat → Parser α} {f : Nat → α → Parser β} {c c₁ c₂ : Cursor} {v : α}
    {w : β} {errors : List StaticError} (hp : Yields p c v c₁)
    (hf : Gives (fun n => f n v) c₁ w errors c₂) :
    Gives (fun n => p n >>= f n) c w errors c₂ :=
  Gives.bind (show Gives p c v [] c₁ from hp) hf

/-- In front of a clean parser only the first one has errors to report. -/
theorem Gives.yields {p : Nat → Parser α} {f : Nat → α → Parser β} {c c₁ c₂ : Cursor} {v : α}
    {w : β} {errors : List StaticError} (hp : Gives p c v errors c₁)
    (hf : Yields (fun n => f n v) c₁ w c₂) :
    Gives (fun n => p n >>= f n) c w errors c₂ := by
  have hpair := hp.bind (show Gives (fun n => f n v) c₁ w [] c₂ from hf)
  rwa [List.append_nil] at hpair

/-! ### Rows of declarations -/

/-- Another declaration is read: something is left, and no brace closes the block. -/
structure GoesOn (inBlock : Bool) (c : Cursor) : Prop where
  atEnd : c.atEnd = false
  brace : inBlock = true → c.check (.mark .rightBrace) = false

/-- Where a token that can start something stands, declarations go on, in a block or outside. -/
theorem goesOn_of_starts {inBlock : Bool} {c : Cursor} {kinds : List Kind}
    (h : StartsWith kinds c.rest) (heof : .eof ∉ kinds) (hbrace : .mark .rightBrace ∉ kinds) :
    GoesOn inBlock c where
  atEnd := by
    obtain ⟨t, rest, hrest, ht⟩ := h
    have hne : t.kind ≠ .eof := fun hkind => heof (hkind ▸ ht)
    simpa [Cursor.atEnd, hrest, Token.is] using hne
  brace _ := by
    refine (Cursor.check_eq_false (by decide)).2 (h.disjoint fun kind hkind heq => ?_)
    exact hbrace (List.mem_singleton.1 heq ▸ hkind)

/-- One declaration, whether it has a value or not, and the others behind it. -/
theorem declarations_gives {inBlock : Bool} {c c₁ c₂ : Cursor} {first : Option Stmt}
    {ss : List Stmt} {early late : List StaticError} (hgo : GoesOn inBlock c)
    (hfirst : Gives declaration c first early c₁)
    (hmore : Gives (fun n => declarations n inBlock) c₁ ss late c₂) :
    Gives (fun n => declarations n inBlock) c (first.toList ++ ss) (early ++ late) c₂ := by
  have hstop : (c.atEnd || inBlock && c.check (.mark .rightBrace)) = false := by
    cases inBlock with
    | false => simp [hgo.atEnd]
    | true => simp [hgo.atEnd, hgo.brace rfl]
  have hatEnd : Yields (fun _ => atEnd) c c.atEnd c := .of_forall fun _ => atEnd_apply c
  have hcheck : Yields (fun _ => check (.mark .rightBrace)) c (c.check (.mark .rightBrace)) c :=
    .of_forall fun _ => check_apply _ c
  refine .succ (hatEnd.gives (hcheck.gives ?_))
  rw [hstop]
  exact hfirst.bind (hmore.yields .pure)

end Parser

open Scriptlet.Parser

/-- Declarations are read one by one. What is behind them is read as if they were not there. -/
theorem Grammar.Declarations.gives {rest : List Token} {last : Token} {inBlock : Bool}
    {q : List Stmt} {errors : List StaticError} {c : Cursor}
    (hrest : Gives (fun n => declarations n inBlock) ⟨last, rest⟩ q errors c) :
    ∀ {ts : List Token} {ss : List Stmt}, Declarations ts rest ss →
      Gives (fun n => declarations n inBlock) ⟨last, ts ++ rest⟩ (ss ++ q) errors c
  | _, _, .nil => hrest
  | _, _, .cons hfirst hmore => by
    rw [List.append_assoc]
    refine declarations_gives ?_ (hfirst.complete last) (Declarations.gives hrest hmore)
    exact goesOn_of_starts (hfirst.starts.append _) (by decide) (by decide)

/-! ### Whole lists -/

/-- What `parse` gives is what the parser of declarations gives with steps enough. -/
theorem gives_parse {tokens : List Token} {last : Token} (hlast : tokens.getLast? = some last) :
    ∃ c, Gives (fun n => declarations n false) ⟨last, tokens⟩ (parse tokens).program
      (parse tokens).errors c := by
  obtain ⟨c, hc⟩ := parse_eq_of_steps hlast (Nat.le_refl (parseSteps tokens))
  refine ⟨c, Filter.eventually_atTop.2 ⟨parseSteps tokens, fun n hn => ?_⟩⟩
  have hsteps : 16 * tokens.length + 13 ≤ parseSteps tokens := by
    unfold parseSteps
    omega
  exact (declarations_eq_of_le (c := ⟨last, tokens⟩) hsteps hn).trans hc

/-- What the parser of declarations gives for a list with steps enough is what `parse` gives. -/
theorem parse_eq_of_gives {tokens : List Token} {last : Token}
    (hlast : tokens.getLast? = some last) {p : Program} {errors : List StaticError} {c : Cursor}
    (h : Gives (fun n => declarations n false) ⟨last, tokens⟩ p errors c) :
    parse tokens = ⟨p, errors⟩ := by
  obtain ⟨c', hc'⟩ := gives_parse hlast
  obtain ⟨n, hn, hn'⟩ := (h.and hc').exists
  obtain ⟨hprogram, herrors, -⟩ := Reply.done.inj (hn.symm.trans hn')
  rw [hprogram, herrors]

/-- Tokens in front of others that are read as `p` with some errors, while the others are read as if
they stood alone. -/
theorem parse_append_of_gives {a b : List Token} (hb : b ≠ []) {p : Program}
    {errors : List StaticError}
    (h : ∀ {last q late c}, Gives (fun n => declarations n false) ⟨last, b⟩ q late c →
      Gives (fun n => declarations n false) ⟨last, a ++ b⟩ (p ++ q) (errors ++ late) c) :
    parse (a ++ b) = ⟨p ++ (parse b).program, errors ++ (parse b).errors⟩ := by
  have hlast : b.getLast? = some (b.getLast hb) := List.getLast?_eq_some_getLast hb
  have hlast' : (a ++ b).getLast? = some (b.getLast hb) := by
    rw [List.getLast?_append, hlast]
    rfl
  obtain ⟨c, hlater⟩ := gives_parse hlast
  exact parse_eq_of_gives hlast' (h hlater)

/-- Tokens that are parsed without an error spell declarations, in front of an end token and in
front of anything else that does not start with `else`. -/
theorem declarations_of_clean {ts rest : List Token} {eof : Token} (heof : eof.kind = .eof)
    (hts : ∀ t ∈ ts, t.kind ≠ .eof) (hclean : (parse (ts ++ [eof])).errors = [])
    (helse : ¬ StartsWith [.keyword .elseWord] rest) :
    Grammar.Declarations ts rest (parse (ts ++ [eof])).program := by
  have hparse : parse (ts ++ [eof]) = ⟨(parse (ts ++ [eof])).program, []⟩ := by
    rw [← hclean]
  have hspelled := (program_of_parse heof hts hparse).declarations
  exact hspelled.before fun hstarts => absurd hstarts helse

/-- **Parsing goes on behind complete declarations as if they were not there.** Let `a` hold no
end token, and let it be parsed without an error when an end token stands behind it. Put any tokens
`b` with an end token among them behind `a`, broken in whatever way, that do not start with `else`.
Then the statements are those of `a` and those of `b`, and the errors are those of `b`. -/
theorem parse_behind_complete {a b : List Token} {eof : Token} (heof : eof.kind = .eof)
    (ha : ∀ t ∈ a, t.kind ≠ .eof) (hclean : (parse (a ++ [eof])).errors = [])
    (hb : ∃ t ∈ b, t.kind = .eof) (helse : ¬ StartsWith [.keyword .elseWord] b) :
    parse (a ++ b) = ⟨(parse (a ++ [eof])).program ++ (parse b).program, (parse b).errors⟩ := by
  obtain ⟨t, ht, -⟩ := hb
  have hspelled := declarations_of_clean heof ha hclean helse
  show parse (a ++ b) = ⟨_, [] ++ (parse b).errors⟩
  exact parse_append_of_gives (List.ne_nil_of_mem ht) fun hlater =>
    Grammar.Declarations.gives hlater hspelled

/-- Behind `if (a) b;`, which could still take an `else`, stands `) var = c; d;`. The two errors
behind it cost two statements there, and the `if` is complete. -/
theorem parse_behind_complete_if :
    let word (kind : Kind) (name : String) : Token := ⟨kind, ⟨0, 0, name⟩, none, 1⟩
    let semicolon := word (.mark .semicolon) ";"
    let closing := word (.mark .rightParen) ")"
    let eof := word .eof ""
    let a := [word (.keyword .ifWord) "if", word (.mark .leftParen) "(", word .identifier "a",
      closing, word .identifier "b", semicolon]
    let b := [closing, word (.keyword .varWord) "var", word (.mark .equal) "=",
      word .identifier "c", semicolon, word .identifier "d", semicolon, eof]
    parse (a ++ b) = ⟨(parse (a ++ [eof])).program ++ (parse b).program, (parse b).errors⟩ ∧
      (parse (a ++ b)).program.length = 2 ∧
      (parse (a ++ b)).errors.map (·.defect) = [.expectedExpression, .expectedName "variable"] := by
  intro word semicolon closing eof a b
  refine ⟨?_, by decide +kernel, by decide +kernel⟩
  exact parse_behind_complete rfl (by decide) (by decide +kernel) ⟨eof, by simp [b], rfl⟩
    (by simp [b, closing, word])

end Scriptlet
