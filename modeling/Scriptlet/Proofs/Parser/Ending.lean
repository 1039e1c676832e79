import Scriptlet.Proofs.Parser.Built
import Scriptlet.Proofs.Parser.Supply

/-!
# `Scriptlet.Proofs.Parser.Ending`: the first end token is the end

A list of tokens may hold several end tokens, and anything may stand behind the first of them.
Nothing there is ever looked at, nor is the token that stands in where a list has no end token.

* `Cursor.upTo_bisimulation`: two cursors with the same tokens up to an end token cannot be told
  apart by any parser, and no parser goes past that token.
* `Parser.declarations_toEnd`: with enough steps, declarations are read up to the end.
* `parse_ends_at_first_end`: what this comes to for whole lists, however broken they are.
-/

set_option autoImplicit false

namespace Scriptlet

namespace Cursor

/-- Cursors with the same tokens up to an end token. What is behind it and what stands in behind
the whole list may differ. -/
structure UpTo (eof : Token) (c₀ c₀' c c' : Cursor) : Prop where
  last : c.last = c₀.last
  last' : c'.last = c₀'.last
  rest : ∃ ts, (∀ t ∈ ts, t.kind ≠ .eof) ∧ c.rest = ts ++ eof :: c₀.rest ∧
    c'.rest = ts ++ eof :: c₀'.rest

/-- Tokens are skipped up to the end token at most, whatever is behind it. -/
theorem skipStatement_upTo {ts : List Token} {eof : Token} (hts : ∀ t ∈ ts, t.kind ≠ .eof)
    (heof : eof.kind = .eof) (previous : Token) :
    ∃ unread, unread <:+ ts ∧
      ∀ rest, skipStatement previous (ts ++ eof :: rest) = unread ++ eof :: rest := by
  induction ts generalizing previous with
  | nil =>
      refine ⟨[], List.suffix_refl _, fun rest => ?_⟩
      simp [skipStatement, Token.is, heof]
  | cons t ts ih =>
      obtain ⟨unread, hsuffix, hskip⟩ := ih (fun x hx => hts x (List.mem_cons_of_mem t hx)) t
      -- Whether the tokens are skipped from here on is decided by the two tokens at hand.
      by_cases hstop : t.is .eof || previous.is (.mark .semicolon) || t.kind.startsStatement
      · refine ⟨t :: ts, List.suffix_refl _, fun rest => ?_⟩
        simp only [List.cons_append, skipStatement, hstop, if_true]
      · refine ⟨unread, hsuffix.trans (List.suffix_cons t ts), fun rest => ?_⟩
        simp only [List.cons_append, skipStatement, hstop, hskip]
        rfl

/-- Every way in which a parser uses its cursor gives the same for both, and leaves them with the
same tokens up to the end token. -/
theorem upTo_bisimulation {eof : Token} (heof : eof.kind = .eof) (c₀ c₀' : Cursor) :
    Bisimulation (UpTo eof c₀ c₀') where
  peek := by
    rintro ⟨last, rest⟩ ⟨last', rest'⟩ ⟨-, -, ts, -, rfl, rfl⟩
    cases ts <;> rfl
  -- At the end token nothing is read. In front of it one token is read from both.
  atEnd := by
    rintro ⟨last, rest⟩ ⟨last', rest'⟩ ⟨-, -, ts, -, rfl, rfl⟩
    cases ts <;> rfl
  advance := by
    rintro ⟨last, rest⟩ ⟨last', rest'⟩ ⟨hlast, hlast', ts, hts, rfl, rfl⟩
    cases ts with
    | nil =>
        have hstays : ∀ last rest, advance ⟨last, eof :: rest⟩ = ⟨last, eof :: rest⟩ := by
          intro last rest
          simp [advance, atEnd, Token.is, heof]
        simp only [List.nil_append, hstays]
        exact ⟨hlast, hlast', [], hts, rfl, rfl⟩
    -- Skipping is decided by the tokens up to the end token alone, and stops there at the latest.
    | cons t ts =>
        have ht : t.kind ≠ .eof := hts t (by simp)
        simp only [List.cons_append, advance_cons ht]
        exact ⟨hlast, hlast', ts, fun x hx => hts x (by simp [hx]), rfl, rfl⟩
  resume := by
    rintro ⟨last, rest⟩ ⟨last', rest'⟩ ⟨hlast, hlast', ts, hts, rfl, rfl⟩
    cases ts with
    | nil =>
        have hstays : ∀ last rest, resume ⟨last, eof :: rest⟩ = ⟨last, eof :: rest⟩ := by
          intro last rest
          simp [resume, Token.is, heof]
        simp only [List.nil_append, hstays]
        exact ⟨hlast, hlast', [], hts, rfl, rfl⟩
    | cons t ts =>
        have ht : t.kind ≠ .eof := hts t (by simp)
        have hrest : ∀ x ∈ ts, x.kind ≠ .eof := fun x hx => hts x (by simp [hx])
        obtain ⟨unread, hsuffix, hskip⟩ := skipStatement_upTo hrest heof t
        simp only [List.cons_append, resume, Token.is, ht, decide_false, hskip]
        exact ⟨hlast, hlast', unread, fun x hx => hrest x (hsuffix.subset hx), rfl, rfl⟩

end Cursor

namespace Parser

/-- Two supplies that are large enough for the tokens ahead give the same declaration. -/
theorem declaration_eq_of_le {n m : Nat} {c : Cursor} (hend : c.atEnd = false)
    (hn : 16 * c.rest.length + 12 ≤ n) (h : n ≤ m) : declaration m c = declaration n c := by
  have hbelow := below_of_le declaration_below h c
  refine hbelow.eq_of_ne fun hstarved => ?_
  have hmeets := declaration_moves n c hn hend
  rw [hstarved] at hmeets
  exact hmeets

/-- Outside blocks, declarations are read up to the end. -/
theorem declarations_toEnd : ∀ n c, 16 * c.rest.length + 13 ≤ n →
    (declarations n false c).Meets (fun _ c' => c'.atEnd = true) (fun _ => False)
  | 0, _, h => by omega
  | n + 1, c, h => by
    unfold declarations
    rw [bind_of_clean (atEnd_apply c), bind_of_clean (check_apply _ c)]
    cases hend : c.atEnd with
    | true => exact hend
    | false =>
        refine meets_bind (declaration_moves n c (by omega) hend) (fun _ h => h) ?_
        rintro first c₁ ⟨-, hlt⟩
        refine meets_bind (declarations_toEnd n c₁ (by omega)) (fun _ h => h) ?_
        intro more c₂ hc₂
        exact hc₂

variable {ts : List Token} {eof : Token}

/-- Declarations are read up to the first end token. -/
theorem declarations_upTo (hts : ∀ t ∈ ts, t.kind ≠ .eof) (heof : eof.kind = .eof) {n : Nat}
    (hn : parseSteps (ts ++ [eof]) ≤ n) (rest : List Token) (last : Token) :
    declarations n false ⟨last, ts ++ eof :: rest⟩
      = .done (parse (ts ++ [eof])).program (parse (ts ++ [eof])).errors ⟨last, eof :: rest⟩ := by
  have hlast : (ts ++ [eof]).getLast? = some eof := by simp
  obtain ⟨c, hc⟩ := parse_eq_of_steps hlast hn
  have hend : c.atEnd = true := by
    have hsteps : 16 * (ts ++ [eof]).length + 13 ≤ n := by
      unfold parseSteps at hn
      omega
    have htoEnd := declarations_toEnd n ⟨eof, ts ++ [eof]⟩ hsteps
    rw [hc] at htoEnd
    exact htoEnd
  -- The same is read when something else follows the end token.
  have hcursor : Cursor.UpTo eof ⟨eof, []⟩ ⟨last, rest⟩ ⟨eof, ts ++ [eof]⟩
      ⟨last, ts ++ eof :: rest⟩ := ⟨rfl, rfl, ts, hts, rfl, rfl⟩
  obtain ⟨c', heq, hc'⟩ :=
    ((declarations_built n false).same (Cursor.upTo_bisimulation heof _ _) hcursor).of_done hc
  obtain ⟨unread, hunread, hrest, hrest'⟩ := hc'.rest
  have hnil : unread = [] := by
    cases unread with
    | nil => rfl
    | cons t unread =>
        -- No token before the first end token looks like the end.
        have ht : t.kind ≠ .eof := hunread t (by simp)
        simp [Cursor.atEnd, Token.is, hrest, ht] at hend
  obtain ⟨last', rest'⟩ := c'
  cases hc'.last'
  cases hrest'
  rw [heq, hnil]
  rfl

/-- What a declaration comes to is decided before the end token. -/
theorem declaration_upTo {t : Token} (hts : ∀ x ∈ t :: ts, x.kind ≠ .eof)
    (heof : eof.kind = .eof) :
    ∃ result errors unread, unread <:+ ts ∧
      ∀ rest last n, 16 * (ts.length + 2) + 12 ≤ n →
        declaration n ⟨last, t :: ts ++ eof :: rest⟩
          = .done result errors ⟨last, unread ++ eof :: rest⟩ := by
  let c : Cursor := ⟨eof, t :: ts ++ [eof]⟩
  have hlength : c.rest.length = ts.length + 2 := by simp [c]
  have hend : c.atEnd = false := by
    have ht : t.kind ≠ .eof := hts t (by simp)
    simpa [c, Cursor.atEnd, Token.is] using ht
  have hmoves := declaration_moves (16 * (ts.length + 2) + 12) c (by omega) hend
  cases hc : declaration (16 * (ts.length + 2) + 12) c with
  | fault error errors c₁ =>
      rw [hc] at hmoves
      exact hmoves.elim
  | starved =>
      rw [hc] at hmoves
      exact hmoves.elim
  | done result errors c₁ =>
      rw [hc] at hmoves
      -- With the same supply and with a larger one, whatever follows the end token.
      have hupTo : ∀ rest last n, 16 * (ts.length + 2) + 12 ≤ n →
          ∃ c₂, declaration n ⟨last, t :: ts ++ eof :: rest⟩ = .done result errors c₂ ∧
            Cursor.UpTo eof ⟨eof, []⟩ ⟨last, rest⟩ c₁ c₂ := by
        intro rest last n hn
        have hcursor : Cursor.UpTo eof ⟨eof, []⟩ ⟨last, rest⟩ c ⟨last, t :: ts ++ eof :: rest⟩ :=
          ⟨rfl, rfl, t :: ts, hts, rfl, rfl⟩
        have hlarger := declaration_eq_of_le hend (by omega) hn
        exact ((declaration_built n).same (Cursor.upTo_bisimulation heof _ _) hcursor).of_done
          (hlarger.trans hc)
      obtain ⟨_, -, -, -, unread, -, hunread, -⟩ := hupTo [] eof _ (Nat.le_refl _)
      refine ⟨result, errors, unread, ?_, fun rest last n hn => ?_⟩
      · obtain ⟨⟨-, front, hfront⟩, hlt⟩ := hmoves
        -- The end token is still ahead, and so what was read is a front part of the others.
        have hread : front ++ unread = t :: ts := by
          rw [hunread, ← List.append_assoc] at hfront
          exact List.append_cancel_right hfront
        cases front with
        | nil =>
            cases hread
            rw [hunread] at hlt
            exact absurd hlt (Nat.lt_irrefl _)
        | cons x front =>
            cases hread
            exact List.suffix_append front unread
      · obtain ⟨⟨last₂, rest₂⟩, heq, -, hlast₂, ts₂, -, hrest, hrest₂⟩ := hupTo rest last n hn
        cases hlast₂
        cases List.append_cancel_right (hunread.symm.trans hrest)
        cases hrest₂
        exact heq

end Parser

/-- **Parsing ends at the first end token.** Let `ts` hold no end token. What is behind the first
end token has no influence on the statements and the errors. With steps for `ts` and the end token
alone, the declarations are read up to that token and not past it, whatever token stands in for
one that is missing: no place outside the list is ever looked at. And every declaration that starts
at one of the tokens `ts` reads at least this token, whether an error is found in it or not, and
goes no further than to the end token. -/
theorem parse_ends_at_first_end (ts : List Token) (eof : Token)
    (hts : ∀ t ∈ ts, t.kind ≠ .eof) (heof : eof.kind = .eof) :
    (∀ rest, parse (ts ++ eof :: rest) = parse (ts ++ [eof])) ∧
    (∀ rest last n, parseSteps (ts ++ [eof]) ≤ n →
      Parser.declarations n false ⟨last, ts ++ eof :: rest⟩
        = .done (parse (ts ++ [eof])).program (parse (ts ++ [eof])).errors ⟨last, eof :: rest⟩) ∧
    ∀ before t after, ts = before ++ t :: after →
      ∃ result errors unread, unread <:+ after ∧
        ∀ rest last n, parseSteps (ts ++ [eof]) ≤ n →
          Parser.declaration n ⟨last, t :: after ++ eof :: rest⟩
            = .done result errors ⟨last, unread ++ eof :: rest⟩ := by
  refine ⟨fun rest => ?_, fun rest last n hn => ?_, ?_⟩
  · -- The longer list has more steps, and its last token is the one that stands in.
    have hlast := List.getLast?_eq_some_getLast (l := ts ++ eof :: rest) (by simp)
    have hsteps : parseSteps (ts ++ [eof]) ≤ parseSteps (ts ++ eof :: rest) := by
      simp only [parseSteps, List.length_append, List.length_cons, List.length_nil]
      omega
    obtain ⟨c, hc⟩ := parse_eq_of_steps hlast (Nat.le_refl _)
    rw [Parser.declarations_upTo hts heof hsteps] at hc
    generalize parse (ts ++ eof :: rest) = longer, parse (ts ++ [eof]) = shorter at hc
    obtain ⟨program, errors⟩ := longer
    obtain ⟨program', errors'⟩ := shorter
    cases hc
    rfl
  · exact Parser.declarations_upTo hts heof hn rest last
  · rintro before t after rfl
    have hafter : ∀ x ∈ t :: after, x.kind ≠ .eof := fun x hx => hts x (by simp_all)
    obtain ⟨result, errors, unread, hunread, hreads⟩ := Parser.declaration_upTo hafter heof
    refine ⟨result, errors, unread, hunread, fun rest last n hn => hreads rest last n ?_⟩
    simp only [parseSteps, List.length_append, List.length_cons, List.length_nil] at hn
    omega

/-- A block in a block and a statement in it, all broken off by an end token on the next line, and
then what would complete them. Each of the three is missing something at that end token. -/
theorem parse_ends_at_first_end_nested :
    let word (kind : Kind) (name : String) : Token := ⟨kind, ⟨0, 0, name⟩, none, 1⟩
    let opening := word (.mark .leftBrace) "\x7b"
    let closing := word (.mark .rightBrace) "\x7d"
    let ts := [opening, opening, word .identifier "a"]
    let eof := { word .eof "" with line := 2 }
    let tokens := ts ++ eof :: [word (.mark .semicolon) ";", closing, closing, eof]
    parse tokens = parse (ts ++ [eof]) ∧ (parse tokens).program.length = 0 ∧
      (parse tokens).errors.map (·.line) = [2, 2, 2] := by
  intro word opening closing ts eof tokens
  have hts : ∀ t ∈ ts, t.kind ≠ .eof := by decide
  exact ⟨(parse_ends_at_first_end ts eof hts rfl).1 _, by decide +kernel, by decide +kernel⟩

end Scriptlet
