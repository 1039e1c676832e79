import Scriptlet.Proofs.Parser.Completeness
import Scriptlet.Proofs.Parser.Soundness
import Scriptlet.Proofs.Parser.Supply

/-!
# `Scriptlet.Proofs.Parser.Acceptance`: the parser and the grammar agree

`parse_clean_iff_program`: tokens with an end token behind them are parsed without an error
into a program exactly when they spell this program, and they spell at most one.

One direction is the soundness of the parsers, the other one their completeness. What joins
them is that `parse` has steps enough (`parse_eq_of_steps`).
-/

set_option autoImplicit false

namespace Scriptlet

open Grammar

/-- Declarations that were read up to the end were read up to the end token. -/
theorem Cursor.Reads.eq_of_atEnd {ts us : List Token} {final last : Token} {c : Cursor}
    (hfinal : final.kind = .eof) (hts : ∀ t ∈ ts, t.kind ≠ .eof)
    (h : Cursor.Reads ⟨last, ts ++ [final]⟩ us c) (hend : c.atEnd = true) :
    us = ts ∧ c.rest = [final] := by
  have hrest : ts ++ [final] = us ++ c.rest := h.rest
  cases hc : c.rest with
  | nil =>
      -- Then the end token was read, which no parser does.
      rw [hc, List.append_nil] at hrest
      exact absurd hfinal (h.inner final (by simp [← hrest]))
  | cons t more =>
      have ht : t.kind = .eof := by
        simpa [Cursor.atEnd, hc, Token.is] using hend
      rw [hc] at hrest
      -- Both lists end at their first end token, so neither reaches beyond the other.
      obtain ⟨vs, rfl, hvs⟩ | ⟨vs, rfl, hvs⟩ := List.append_eq_append_iff.1 hrest
      · obtain ⟨rfl, hfinal⟩ | ⟨-, h⟩ := List.append_eq_singleton_iff.1 hvs.symm
        · exact ⟨List.append_nil ts, hfinal⟩
        · cases h
      · cases vs with
        | nil => exact ⟨(List.append_nil us).symm, hvs⟩
        | cons v vs =>
            cases hvs
            exact absurd ht (hts t (by simp))

/-- Tokens that are parsed without an error spell the program. -/
theorem program_of_parse {ts : List Token} {final : Token} {p : Program}
    (hfinal : final.kind = .eof) (hts : ∀ t ∈ ts, t.kind ≠ .eof)
    (h : parse (ts ++ [final]) = ⟨p, []⟩) : Grammar.Program (ts ++ [final]) p := by
  have hlast : (ts ++ [final]).getLast? = some final := by simp
  obtain ⟨c, hc⟩ := parse_eq_of_steps hlast (Nat.le_refl _)
  rw [h] at hc
  have hclosed : Cursor.Closed ⟨final, ts ++ [final]⟩ := hfinal
  obtain ⟨us, hreads, hdeclarations, hend⟩ := Parser.declarations_sound _ hclosed hc
  -- Only a block stops at a brace: a program was read to its end.
  obtain ⟨rfl, hrest⟩ := hreads.eq_of_atEnd hfinal hts (hend rfl)
  rw [hrest] at hdeclarations
  exact .intro hdeclarations hfinal

/-- Tokens that spell a program are parsed as this program, without an error. -/
theorem parse_of_program {tokens : List Token} {p : Program}
    (h : Grammar.Program tokens p) : parse tokens = ⟨p, []⟩ := by
  cases h with
  | @intro ts final _ hdeclarations hfinal =>
      have hlast : (ts ++ [final]).getLast? = some final := by simp
      have hyields := hdeclarations.complete final false (by simp [Ends, hfinal])
      -- A supply that is large enough both for the derivation and for `parse_eq_of_steps`.
      obtain ⟨n, hn, hsteps⟩ :=
        (hyields.and (Filter.eventually_ge_atTop (parseSteps (ts ++ [final])))).exists
      obtain ⟨c, hc⟩ := parse_eq_of_steps hlast hsteps
      obtain ⟨hprogram, herrors, -⟩ := Reply.done.inj (hn.symm.trans hc)
      rw [hprogram, herrors]

/-- **The parser accepts exactly the grammar.** For tokens with an end token behind them and
nowhere else: they are parsed as a program without an error exactly when they spell it, and
no tokens spell two programs. -/
theorem parse_clean_iff_program {ts : List Token} {final : Token}
    (hfinal : final.kind = .eof) (hts : ∀ t ∈ ts, t.kind ≠ .eof) :
    (∀ p, parse (ts ++ [final]) = ⟨p, []⟩ ↔ Grammar.Program (ts ++ [final]) p) ∧
    ∀ p q, Grammar.Program (ts ++ [final]) p → Grammar.Program (ts ++ [final]) q → p = q := by
  refine ⟨fun p => ⟨program_of_parse hfinal hts, parse_of_program⟩, fun p q hp hq => ?_⟩
  have hparse := (parse_of_program hp).symm.trans (parse_of_program hq)
  exact congrArg Parse.program hparse

/-- The tokens of `if (a) if (b) c; else d;` spell an `if` without `else` around one with
`else`, since the parser says so. -/
theorem program_of_nested_if :
    let word (kind : Kind) (name : String) : Token := ⟨kind, ⟨0, 0, name⟩, none, 1⟩
    let a := word .identifier "a"
    let b := word .identifier "b"
    let c := word .identifier "c"
    let d := word .identifier "d"
    let opening := word (.mark .leftParen) "("
    let closing := word (.mark .rightParen) ")"
    let semicolon := word (.mark .semicolon) ";"
    let condition := word (.keyword .ifWord) "if"
    Grammar.Program
      ([condition, opening, a, closing, condition, opening, b, closing, c, semicolon,
        word (.keyword .elseWord) "else", d, semicolon] ++ [word .eof ""])
      [.branch (.get a)
        (.branch (.get b) (.expression (.get c)) (some (.expression (.get d)))) none] :=
  ((parse_clean_iff_program rfl (by simp)).1 _).1 rfl

end Scriptlet
