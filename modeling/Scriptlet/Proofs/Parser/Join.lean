import Scriptlet.Proofs.Parser.Acceptance

/-!
# `Scriptlet.Proofs.Parser.Join`: programs one after the other

What the grammar makes of two programs in a row. A statement looks at what follows it for one
reason only: an `if` without `else` has no `else` behind it. So a program stays what it is in
front of any tokens that do not start with `else` (`Declarations.before`), and no program
starts with `else`. The tokens of two programs spell the first one and the second one behind
it (`parse_append`).
-/

set_option autoImplicit false

namespace Scriptlet

namespace Grammar

/-- No `else` follows that did not follow before. -/
def Calmer (rest rest' : List Token) : Prop :=
  StartsWith [.keyword .elseWord] rest' → StartsWith [.keyword .elseWord] rest

/-- Tokens in front of what follows keep this so: only where there are none does the rest decide. -/
theorem Calmer.append {rest rest' : List Token} (h : Calmer rest rest') :
    ∀ us : List Token, Calmer (us ++ rest) (us ++ rest')
  | [] => h
  | _ :: _ => by
    intro hstarts
    simpa using hstarts

mutual

/-- A declaration stays one in front of other tokens, as long as no `else` comes with them. -/
theorem Declaration.before {rest' : List Token} : ∀ {ts rest : List Token} {s : Stmt},
    Calmer rest rest' → Declaration ts rest s → Declaration ts rest' s
  | _, _, _, h, .function hword hname hopening hcommas hnames hsize hclosing hleft hbody
      hright =>
    .function hword hname hopening hcommas hnames hsize hclosing hleft
      (hbody.before (h.append [_])) hright
  | _, _, _, _, .binding hword hbinding => .binding hword hbinding
  | _, _, _, h, .statement hs => .statement (hs.before h)

/-- A statement stays one in the same way. What matters is the `if` without `else` at its end. -/
theorem Statement.before {rest' : List Token} : ∀ {ts rest : List Token} {s : Stmt},
    Calmer rest rest' → Statement ts rest s → Statement ts rest' s
  | _, _, _, _, .expression he hsemicolon => .expression he hsemicolon
  | _, _, _, h, .block hleft hbody hright =>
    .block hleft (hbody.before (h.append [_])) hright
  | _, _, _, h, .ifThen hword hopening hc hclosing hyes helse =>
    .ifThen hword hopening hc hclosing (hyes.before h) fun hstarts => helse (h hstarts)
  | _, _, _, h, .ifElse hword hopening hc hclosing hyes helse hno =>
    .ifElse hword hopening hc hclosing (hyes.before (h.append (_ :: _))) helse (hno.before h)
  | _, _, _, h, .loop hword hopening hc hclosing hbody =>
    .loop hword hopening hc hclosing (hbody.before h)
  | _, _, _, h, .forLoop hword hopening hinit hcondition hsemicolon hincrement hclosing hbody =>
    .forLoop hword hopening hinit hcondition hsemicolon hincrement hclosing (hbody.before h)
  | _, _, _, _, .giveBack hword hresult hsemicolon => .giveBack hword hresult hsemicolon

/-- Declarations in a row: all but the last one are followed by the next one and not by the rest. -/
theorem Declarations.before {rest' : List Token} : ∀ {ts rest : List Token} {ss : List Stmt},
    Calmer rest rest' → Declarations ts rest ss → Declarations ts rest' ss
  | _, _, _, _, .nil => .nil
  | _, _, _, h, .cons hs hss => .cons (hs.before (h.append _)) (hss.before h)

end

/-- Declarations, and others behind them, are declarations in a row. -/
theorem Declarations.append {us rest : List Token} {q : List Stmt}
    (hq : Declarations us rest q) : ∀ {ts : List Token} {p : List Stmt},
    Declarations ts (us ++ rest) p → Declarations (ts ++ us) rest (p ++ q)
  | _, _, .nil => hq
  | _, _, .cons hs hss => by
    have hlater := hq.append hss
    rw [← List.append_assoc] at hs
    rw [List.append_assoc]
    exact .cons hs hlater

/-- No row of declarations starts with `else`, and none has it behind it at the end. -/
theorem Declarations.calm {us rest : List Token} {q : List Stmt} (h : Declarations us rest q)
    (hrest : ¬ StartsWith [.keyword .elseWord] rest) :
    ¬ StartsWith [.keyword .elseWord] (us ++ rest) := by
  cases h with
  | nil => exact hrest
  | cons hs _ =>
      rw [List.append_assoc]
      exact (hs.starts.append _).disjoint (by decide)

/-- What a program spells without its end token. -/
theorem Program.declarations {ts : List Token} {final : Token} {p : List Stmt}
    (h : Program (ts ++ [final]) p) : Declarations ts [final] p := by
  generalize htokens : ts ++ [final] = tokens at h
  obtain ⟨hdeclarations, -⟩ := h
  obtain ⟨rfl, hlast⟩ := List.append_inj' htokens rfl
  cases hlast
  exact hdeclarations

end Grammar

open Grammar

/-- Two programs in a row are one program: the first one, and the second one behind it. -/
theorem parse_append {ts us : List Token} {final final' : Token} {p q : Program}
    (hfinal : final.kind = .eof) (hts : ∀ t ∈ ts, t.kind ≠ .eof)
    (hp : parse (ts ++ [final]) = ⟨p, []⟩) (hfinal' : final'.kind = .eof)
    (hus : ∀ t ∈ us, t.kind ≠ .eof) (hq : parse (us ++ [final']) = ⟨q, []⟩) :
    parse (ts ++ (us ++ [final'])) = ⟨p ++ q, []⟩ := by
  have hfirst := (program_of_parse hfinal hts hp).declarations
  have hsecond := (program_of_parse hfinal' hus hq).declarations
  have hcalm : ¬ StartsWith [.keyword .elseWord] (us ++ [final']) :=
    hsecond.calm (by simp [hfinal'])
  have hbefore := hfirst.before fun hstarts => absurd hstarts hcalm
  rw [← List.append_assoc]
  exact parse_of_program (.intro (hsecond.append hbefore) hfinal')

end Scriptlet
