import Scriptlet.Proofs.Parser.Prefix
import Scriptlet.Proofs.Parser.Scrap

/-!
# `Scriptlet.Proofs.Parser.Recovery`: a broken statement costs only itself

A statement in error is dropped up to its semicolon, and what stands around it is parsed as if
nothing had happened, inside of blocks too.

* `Parser.Passes`: tokens that are read as some declarations with some errors, wherever declarations
  are read. What stands behind them is read as if they were not there. Complete declarations are
  such tokens (`Complete.passes`), and so is a scrap (`Scrap.parse_passes`).
* `RowAround` and `StatementAround`: complete declarations, but for some tokens inside of their
  blocks. If those pass, so does the whole (`RowAround.passes`).
* `broken_statement_confined`: what this comes to for whole lists.

An `else` behind an `if` without one still belongs to it. So tokens that may take an `else` are told
from those that do not, by a flag.
-/

set_option autoImplicit false

namespace Scriptlet

open Grammar

namespace Parser

variable {α β : Type}

/-! ### Rules for parsers that report errors -/

section Rules

variable {c c' : Cursor} {w : β} {errors : List StaticError}

/-- A parser that gives a value needs no recovery. -/
theorem Gives.recover {p : Nat → Parser β} (h : Gives p c w errors c') :
    Gives (fun n => recover (p n)) c (some w) errors c' := by
  filter_upwards [h] with n hn
  simp only [Parser.recover, hn]

/-- A value is changed, and the errors stay as they are. -/
theorem Gives.map {p : Nat → Parser α} {v : α} (g : α → β) (h : Gives p c v errors c') :
    Gives (fun n => g <$> p n) c (g v) errors c' :=
  h.yields .pure

/-- A token of the kinds that are looked for is read, whatever is reported behind it. -/
theorem Gives.take {kinds : List Kind} (heof : .eof ∉ kinds) {f : Nat → Option Token → Parser β}
    {last t : Token} {rest : List Token} (ht : t.kind ∈ kinds)
    (h : Gives (fun n => f n (some t)) ⟨last, rest⟩ w errors c') :
    Gives (fun n => take? kinds >>= f n) ⟨last, t :: rest⟩ w errors c' :=
  Yields.gives (.of_forall fun _ => take?_of_mem heof ht) h

/-- No such token is there, so nothing is read, whatever is reported behind it. -/
theorem Gives.skip {kinds : List Kind} {f : Nat → Option Token → Parser β}
    (hnot : ¬ StartsWith kinds c.rest) (h : Gives (fun n => f n none) c w errors c') :
    Gives (fun n => take? kinds >>= f n) c w errors c' :=
  Yields.gives (.of_forall fun _ => take?_of_not hnot) h

/-- A token that has to be there is there, whatever is reported behind it. -/
theorem Gives.demand {kind : Kind} (hkind : kind ≠ .eof) {defect : Defect}
    {f : Nat → Token → Parser β} {last t : Token} {rest : List Token} (ht : t.kind = kind)
    (h : Gives (fun n => f n t) ⟨last, rest⟩ w errors c') :
    Gives (fun n => demand kind defect >>= f n) ⟨last, t :: rest⟩ w errors c' :=
  Yields.gives (.of_forall fun _ => demand_of_kind hkind ht) h

/-- The parameters of a function, whatever is reported behind them. -/
theorem Gives.parameters {params ps : List Token}
    (hcommas : CommaList (params.map fun p => [p]) ps)
    (hnames : ∀ p ∈ params, p.kind = .identifier) (hsize : params.length ≤ 255)
    {f : Nat → List Token → Parser β} {last closing : Token} {rest : List Token}
    (hclosing : closing.kind = .mark .rightParen)
    (h : Gives (fun n => f n params) ⟨last, closing :: rest⟩ w errors c') :
    Gives (fun n => Parser.check (.mark .rightParen) >>= fun closes =>
      if closes then pure [] >>= f n else parameters n 0 >>= f n)
      ⟨last, ps ++ closing :: rest⟩ w errors c' := by
  have hread := parameters_complete (f := fun _ => pure) hcommas hnames hsize hclosing
    (Yields.pure (c := ⟨last, closing :: rest⟩))
  filter_upwards [hread, h] with n hn hf
  rw [bind_of_clean (check_apply _ _)] at hn ⊢
  have hlater : ∀ {p : Parser (List Token)}, (p >>= pure) ⟨last, ps ++ closing :: rest⟩
      = .done params [] ⟨last, closing :: rest⟩ →
        (p >>= f n) ⟨last, ps ++ closing :: rest⟩ = .done w errors c' := by
    intro p hp
    obtain ⟨_, _, hparams, hdone⟩ := bind_clean.1 hp
    cases hdone
    rw [bind_of_clean hparams]
    exact hf
  generalize Cursor.check ⟨last, ps ++ closing :: rest⟩ (.mark .rightParen) = closes at hn ⊢
  cases closes with
  | true => exact hlater hn
  | false => exact hlater hn

end Rules

/-! ### Tokens that pass -/

/-- What follows does not start with an `else`, if that would be taken. -/
def Unclaimed (takes : Bool) (rest : List Token) : Prop :=
  takes = true → ¬ StartsWith [.keyword .elseWord] rest

/-- Wherever declarations are read, the tokens are read as `ss` with these errors, and what stands
behind them is read as if they were not there. -/
structure Passes (takes : Bool) (ts : List Token) (ss : List Stmt) (errors : List StaticError) :
    Prop where
  calm : ¬ StartsWith [.keyword .elseWord] ts
  takes_of_nil : ts = [] → takes = true
  gives {inBlock : Bool} {last : Token} {rest : List Token} {q : List Stmt}
    {late : List StaticError} {c : Cursor} : Unclaimed takes rest →
    Gives (fun n => declarations n inBlock) ⟨last, rest⟩ q late c →
    Gives (fun n => declarations n inBlock) ⟨last, ts ++ rest⟩ (ss ++ q) (errors ++ late) c

/-- The same of tokens that are read as one statement, which a word or a brace opens. -/
structure Stands (takes : Bool) (ts : List Token) (s : Stmt) (errors : List StaticError) :
    Prop where
  starts : StartsWith statementOpeners ts
  gives (last : Token) (rest : List Token) : Unclaimed takes rest →
    Gives statement ⟨last, ts ++ rest⟩ s errors ⟨last, rest⟩

/-- A row does not start with `else` if neither of its parts does. -/
theorem calm_append {ts rest : List Token} (hts : ¬ StartsWith [.keyword .elseWord] ts)
    (hrest : ¬ StartsWith [.keyword .elseWord] rest) :
    ¬ StartsWith [.keyword .elseWord] (ts ++ rest) := by
  cases ts with
  | nil => exact hrest
  | cons t ts => simpa using hts

/-- One declaration, with a value or without one. -/
theorem passes_declaration {takes : Bool} {t : Token} {ts : List Token} {first : Option Stmt}
    {errors : List StaticError}
    (ht : t.kind ∉ [.eof, .mark .rightBrace, .keyword .elseWord])
    (h : ∀ last rest, Unclaimed takes rest →
      Gives declaration ⟨last, t :: ts ++ rest⟩ first errors ⟨last, rest⟩) :
    Passes takes (t :: ts) first.toList errors where
  calm := by
    rw [startsWith_cons]
    exact fun hkind => ht (List.mem_of_mem_tail (List.mem_of_mem_tail hkind))
  takes_of_nil := nofun
  gives hrest hlater := by
    have hgo : ∀ inBlock last rest, GoesOn inBlock ⟨last, t :: ts ++ rest⟩ := by
      intro inBlock last rest
      have hstarts : StartsWith [t.kind] (t :: ts ++ rest) := by simp
      refine goesOn_of_starts hstarts (fun heof => ht ?_) fun hbrace => ht ?_
      · rw [← List.mem_singleton.1 heof]
        decide
      · rw [← List.mem_singleton.1 hbrace]
        decide
    exact declarations_gives (hgo _ _ _) (h _ _ hrest) hlater

namespace Passes

variable {takes takes' : Bool} {ts us : List Token} {ss tt : List Stmt}
  {errors errors' : List StaticError}

/-- Tokens that pass, in a row. -/
theorem append (h : Passes takes ts ss errors) (h' : Passes takes' us tt errors') :
    Passes takes' (ts ++ us) (ss ++ tt) (errors ++ errors') where
  calm := calm_append h.calm h'.calm
  takes_of_nil hnil := h'.takes_of_nil (List.append_eq_nil_iff.1 hnil).2
  gives {inBlock last rest q late c} hrest hlater := by
    rw [List.append_assoc, List.append_assoc, List.append_assoc]
    refine h.gives (fun _ => ?_) (h'.gives hrest hlater)
    cases us with
    | nil => exact hrest (h'.takes_of_nil rfl)
    | cons u us => simpa using h'.calm

/-- The inside of a block, up to its brace. -/
theorem block (h : Passes takes ts ss errors) {last right : Token}
    (hright : right.kind = .mark .rightBrace) (rest : List Token) :
    Gives block ⟨last, ts ++ right :: rest⟩ ss errors ⟨last, rest⟩ := by
  have hstop : Gives (fun n => declarations n true) ⟨last, right :: rest⟩ [] []
      ⟨last, right :: rest⟩ := declarations_stop (by simp [Ends, hright])
  have hbody := h.gives (fun _ => by simp [hright]) hstop
  rw [List.append_nil, List.append_nil] at hbody
  exact .succ (hbody.yields (.demand (by decide) hright .pure))

/-- What `parse` gives for tokens that pass, with others behind them. -/
theorem parse_eq (h : Passes takes ts ss errors) {b : List Token} (hb : b ≠ [])
    (hcalm : Unclaimed takes b) :
    parse (ts ++ b) = ⟨ss ++ (parse b).program, errors ++ (parse b).errors⟩ :=
  parse_append_of_gives hb fun hlater => h.gives hcalm hlater

end Passes

/-- A statement among declarations. -/
theorem Stands.passes {takes : Bool} {ts : List Token} {s : Stmt} {errors : List StaticError}
    (h : Stands takes ts s errors) : Passes takes ts [s] errors := by
  obtain ⟨t, rest, rfl, ht⟩ := h.starts
  have hkinds : ∀ kind ∈ statementOpeners, kind ∉ [.eof, .mark .rightBrace, .keyword .elseWord] ∧
      kind ∉ [.keyword .funWord, .keyword .varWord] := by decide
  have hfirst := (hkinds _ ht).2
  show Passes takes (t :: rest) (some s).toList errors
  exact passes_declaration (hkinds _ ht).1 fun last rest hrest =>
    .succ (.recover (.skip (by simpa using hfirst) (h.gives last rest hrest)))

end Parser

open Scriptlet.Parser

/-! ### Complete declarations, and scraps -/

/-- Tokens that are parsed without an error do not start with `else`. -/
theorem calm_of_clean {ts : List Token} {eof : Token} (heof : eof.kind = .eof)
    (hclean : (parse (ts ++ [eof])).errors = []) :
    ¬ StartsWith [.keyword .elseWord] (ts ++ [eof]) := by
  have hlast : (ts ++ [eof]).getLast? = some eof := by simp
  obtain ⟨c, hc⟩ := parse_eq_of_steps hlast (Nat.le_refl _)
  rw [hclean] at hc
  have hclosed : Cursor.Closed ⟨eof, ts ++ [eof]⟩ := heof
  obtain ⟨us, hreads, hspelled, hend⟩ := declarations_sound _ hclosed hc
  have hrest : ¬ StartsWith [.keyword .elseWord] c.rest := by
    rintro ⟨t, rest, hrest, ht⟩
    have hatEnd := hend rfl
    simp [Cursor.atEnd, hrest, Token.is, List.mem_singleton.1 ht] at hatEnd
  rw [show ts ++ [eof] = us ++ c.rest from hreads.rest]
  exact hspelled.calm hrest

/-- The tokens are parsed without an error when an end token stands behind them, and no other end
token is among them. -/
structure Complete (eof : Token) (ts : List Token) : Prop where
  inner : ∀ t ∈ ts, t.kind ≠ .eof
  clean : (parse (ts ++ [eof])).errors = []

/-- Complete declarations pass without an error. The grammar decides this, since they spell
declarations wherever no `else` follows. -/
theorem Complete.passes {eof : Token} {ts : List Token} (heof : eof.kind = .eof)
    (h : Complete eof ts) : Passes true ts (parse (ts ++ [eof])).program [] where
  calm hstarts := calm_of_clean heof h.clean (hstarts.append [eof])
  takes_of_nil _ := rfl
  gives hrest hlater :=
    Declarations.gives hlater (declarations_of_clean heof h.inner h.clean (hrest rfl))

/-- A scrap is read as one declaration, or as none and with one error that stopped it. All its
errors are blamed on its tokens. What stands behind it plays no part in this. -/
theorem Scrap.exists_passes {z : Scrap} (helse : ¬ StartsWith [.keyword .elseWord] z.tokens)
    (hlone : ∀ t ∈ z.tokens.tail, t.kind.startsStatement = false) :
    ∃ (first : Option Stmt) (errors : List StaticError),
      first.toList.length + errors.countP (·.defect.stops) = 1 ∧
      (∀ e ∈ errors, ∃ t ∈ z.tokens, e = .ofToken t e.defect) ∧
      Passes true z.tokens first.toList errors := by
  obtain ⟨t, r, htokens⟩ := z.open_tokens.exists_cons
  have hopen : z.Open (t :: r) := htokens ▸ z.open_tokens
  -- The reply to the scrap alone, with steps enough for it, is the reply in all other lists.
  let k := 16 * z.tokens.length + 12
  have halone : declared k ⟨z.semicolon, z.tokens⟩ ≠ .starved := by
    intro hstarved
    have hend : Cursor.atEnd ⟨z.semicolon, z.tokens⟩ = false := by
      simp [Cursor.atEnd, htokens, Token.is, hopen.kind_ne_eof]
    have hmoves := declaration_moves (k + 1) ⟨z.semicolon, z.tokens⟩ (Nat.le_succ k) hend
    simp only [declaration_succ, recover, hstarved] at hmoves
    exact hmoves
  have hnil : ¬ StartsWith [.keyword .elseWord] [] := not_startsWith_nil
  have hinside := (declared_local k).reply z.semicolon z.open_tokens hnil
  refine ⟨_, _, Scrap.value_or_error hinside halone, Scrap.errors_located hinside, ?_⟩
  rw [htokens] at helse ⊢
  rw [startsWith_cons] at helse
  have hbrace : t.kind ≠ .mark .rightBrace := by
    intro hkind
    have hsemicolon := Scrap.kind_of_mem hopen.mem (by rw [hkind]; decide)
    cases hkind.symm.trans hsemicolon
  refine passes_declaration ?_ fun last rest hrest => ?_
  · simp only [List.mem_cons, List.not_mem_nil, or_false, not_or]
    exact ⟨hopen.kind_ne_eof, hbrace, fun hkind => helse (List.mem_singleton.2 hkind)⟩
  · rw [← htokens]
    refine Filter.eventually_atTop.2 ⟨k + 1, fun n hn => ?_⟩
    have hdone := Scrap.recover_eq hlone (declared_local k) halone last (hrest rfl)
    have hbelow := below_of_le declaration_below hn ⟨last, z.tokens ++ rest⟩
    rw [declaration_succ, hdone] at hbelow
    exact hbelow.eq_of_ne (by simp)

/-- What a scrap comes to on its own, it comes to wherever declarations are read. -/
theorem Scrap.parse_passes (z : Scrap) {eof : Token} (heof : eof.kind = .eof)
    (helse : ¬ StartsWith [.keyword .elseWord] z.inner)
    (hlone : ∀ t ∈ z.inner.tail, t.kind.startsStatement = false) :
    let own := parse (z.inner ++ [z.semicolon, eof])
    own.program.length + own.errors.countP (·.defect.stops) = 1 ∧
    (∀ e ∈ own.errors, ∃ t ∈ z.tokens, e = .ofToken t e.defect) ∧
    Passes true z.tokens own.program own.errors := by
  have hfirst : ¬ StartsWith [.keyword .elseWord] z.tokens :=
    calm_append helse (by simp [z.closes])
  have hcalm : ∀ t ∈ z.tokens.tail, t.kind.startsStatement = false := by
    have hsemicolon : z.semicolon.kind.startsStatement = false := by
      rw [z.closes]
      rfl
    intro t ht
    cases hinner : z.inner with
    | nil => simp [Scrap.tokens, hinner] at ht
    | cons u us =>
        rw [Scrap.tokens, hinner, List.cons_append, List.tail_cons, List.mem_append] at ht
        obtain ht | ht := ht
        · exact hlone t (by rw [hinner]; exact ht)
        · rw [List.mem_singleton.1 ht]
          exact hsemicolon
  obtain ⟨first, errors, hone, hlocated, hpasses⟩ := Scrap.exists_passes hfirst hcalm
  have hend : parse [eof] = ⟨[], []⟩ := parse_of_program (.intro .nil heof)
  have hown := hpasses.parse_eq (List.cons_ne_nil eof []) fun _ => by simp [heof]
  rw [hend, List.append_nil, List.append_nil, Scrap.tokens, List.append_assoc] at hown
  rw [show [z.semicolon] ++ [eof] = [z.semicolon, eof] from rfl] at hown
  rw [hown]
  exact ⟨hone, hlocated, hpasses⟩

/-! ### Around some tokens -/

/-- Tokens that make `whole` of the statement `s` behind them. The flag says whether it may take an
`else` that follows. -/
inductive Lead (s : Stmt) : Bool → List Token → Stmt → Prop where
  | loop {word opening closing : Token} {cs : List Token} {c : Expr} :
      word.kind = .keyword .whileWord → opening.kind = .mark .leftParen →
      Derives .assignment cs c → closing.kind = .mark .rightParen →
      Lead s false (word :: opening :: (cs ++ [closing])) (.loop c s)
  | branch {word opening closing : Token} {cs : List Token} {c : Expr} :
      word.kind = .keyword .ifWord → opening.kind = .mark .leftParen →
      Derives .assignment cs c → closing.kind = .mark .rightParen →
      Lead s true (word :: opening :: (cs ++ [closing])) (.branch c s none)
  | otherwise {word opening closing otherwise : Token} {cs us : List Token} {c : Expr}
      {yes : Stmt} :
      word.kind = .keyword .ifWord → opening.kind = .mark .leftParen →
      Derives .assignment cs c → closing.kind = .mark .rightParen →
      (∀ rest, Statement us (otherwise :: rest) yes) → otherwise.kind = .keyword .elseWord →
      Lead s false (word :: opening :: (cs ++ closing :: (us ++ [otherwise])))
        (.branch c yes (some s))
  | forLoop {word opening semicolon closing : Token} {ds cs is : List Token}
      {init : Option Stmt} {condition increment : Option Expr} :
      word.kind = .keyword .forWord → opening.kind = .mark .leftParen →
      Initializer ds init → Clause cs condition → semicolon.kind = .mark .semicolon →
      Clause is increment → closing.kind = .mark .rightParen →
      Lead s false (word :: opening :: (ds ++ (cs ++ semicolon :: (is ++ [closing]))))
        (.ofFor init condition increment s)

namespace Parser

variable {s whole : Stmt} {takes takes' : Bool} {hs ts rest : List Token} {last : Token}
  {errors : List StaticError}

/-- A statement that its first token opens. -/
theorem Gives.opened {word : Token} (hword : word.kind ∈ statementOpeners) {c : Cursor}
    (h : Gives (fun n => opened n word) ⟨last, rest⟩ s errors c) :
    Gives statement ⟨last, word :: rest⟩ s errors c :=
  .succ (.take (by decide) hword h)

/-- A condition in parentheses, whatever is reported behind it. -/
theorem Gives.condition {β : Type} {before behind : String} {f : Nat → Expr → Parser β}
    {opening closing : Token} {cs : List Token} {e : Expr}
    (hopening : opening.kind = .mark .leftParen) (he : Derives .assignment cs e)
    (hclosing : closing.kind = .mark .rightParen) {w : β} {c : Cursor}
    (h : Gives (fun n => f n e) ⟨last, rest⟩ w errors c) :
    Gives (fun n => expect (.mark .leftParen) before >>= fun _ => expression n >>= fun e =>
      expect (.mark .rightParen) behind >>= fun _ => f n e)
      ⟨last, opening :: (cs ++ closing :: rest)⟩ w errors c :=
  .demand (by decide) hopening
    ((he.complete (by decide) hclosing).gives (.demand (by decide) hclosing h))

/-- What is read as one statement may be the last part of another one. The whole takes an `else` if
the lead does or the part does. -/
theorem Stands.lead (hlead : Lead s takes hs whole) (h : Stands takes' ts s errors) :
    Stands (takes || takes') (hs ++ ts) whole errors := by
  constructor
  case starts =>
    cases hlead <;> simp [statementOpeners, *]
  -- Each lead is read up to the statement as if it were clean. Only then its part has errors to
  -- report.
  case gives =>
    intro last rest hrest
    have hs := h.gives last rest fun htakes => hrest (by simp [htakes])
    cases hlead with
    | loop hword hopening hc hclosing =>
        simp only [List.cons_append, List.append_assoc, List.nil_append]
        refine .opened (by rw [hword]; decide) ?_
        simp only [opened, hword]
        exact .succ (.condition hopening hc hclosing (hs.yields .pure))
    | branch hword hopening hc hclosing =>
        simp only [List.cons_append, List.append_assoc, List.nil_append]
        refine .opened (by rw [hword]; decide) ?_
        simp only [opened, hword]
        exact .succ (.condition hopening hc hclosing (hs.yields (.skip (hrest rfl) .pure)))
    | otherwise hword hopening hc hclosing hyes hotherwise =>
        simp only [List.cons_append, List.append_assoc, List.nil_append]
        refine .opened (by rw [hword]; decide) ?_
        simp only [opened, hword]
        refine .succ (.condition hopening hc hclosing (((hyes _).complete last).gives ?_))
        exact .take (by decide) (by simp [hotherwise]) (hs.yields .pure)
    | forLoop hword hopening hinit hc hsemicolon hi hclosing =>
        simp only [List.cons_append, List.append_assoc, List.nil_append]
        refine .opened (by rw [hword]; decide) ?_
        simp only [opened, hword]
        refine .succ (.demand (by decide) hopening (hinit.complete.gives ?_))
        refine (hc.complete (by decide) hsemicolon).gives (.demand (by decide) hsemicolon ?_)
        refine (hi.complete (by decide) hclosing).gives (.demand (by decide) hclosing ?_)
        exact hs.yields .pure

end Parser

mutual

/-- Complete declarations, but for the tokens `core` among them or inside of their blocks. Where
`core` is read as `body`, all of them are read as `ss`. -/
inductive RowAround (eof : Token) (core : List Token) (body : List Stmt) :
    Bool → List Token → List Stmt → Prop where
  | core : RowAround eof core body true core body
  | behind {takes : Bool} {ts us : List Token} {ss : List Stmt} : Complete eof us →
      RowAround eof core body takes ts ss →
      RowAround eof core body takes (us ++ ts) ((parse (us ++ [eof])).program ++ ss)
  | before {takes : Bool} {ts us : List Token} {ss : List Stmt} :
      RowAround eof core body takes ts ss → Complete eof us →
      RowAround eof core body true (ts ++ us) (ss ++ (parse (us ++ [eof])).program)
  | function {takes : Bool} {word name opening closing left right : Token}
      {params ps ts : List Token} {ss : List Stmt} :
      word.kind = .keyword .funWord → name.kind = .identifier →
      opening.kind = .mark .leftParen → CommaList (params.map fun p => [p]) ps →
      (∀ p ∈ params, p.kind = .identifier) → params.length ≤ 255 →
      closing.kind = .mark .rightParen → left.kind = .mark .leftBrace →
      RowAround eof core body takes ts ss → right.kind = .mark .rightBrace →
      RowAround eof core body false
        (word :: name :: opening :: (ps ++ closing :: left :: (ts ++ [right])))
        [.function name params ss]
  | statement {takes : Bool} {ts : List Token} {s : Stmt} :
      StatementAround eof core body takes ts s → RowAround eof core body takes ts [s]

/-- The same of one statement. -/
inductive StatementAround (eof : Token) (core : List Token) (body : List Stmt) :
    Bool → List Token → Stmt → Prop where
  | block {takes : Bool} {left right : Token} {ts : List Token} {ss : List Stmt} :
      left.kind = .mark .leftBrace → RowAround eof core body takes ts ss →
      right.kind = .mark .rightBrace →
      StatementAround eof core body false (left :: (ts ++ [right])) (.block ss)
  | lead {takes takes' : Bool} {hs ts : List Token} {s whole : Stmt} :
      Lead s takes hs whole → StatementAround eof core body takes' ts s →
      StatementAround eof core body (takes || takes') (hs ++ ts) whole
  /-- In front of the `else` nothing may take it. -/
  | ifElse {word opening closing otherwise : Token} {cs ts us : List Token} {c : Expr}
      {yes no : Stmt} :
      word.kind = .keyword .ifWord → opening.kind = .mark .leftParen →
      Derives .assignment cs c → closing.kind = .mark .rightParen →
      StatementAround eof core body false ts yes → otherwise.kind = .keyword .elseWord →
      (∀ rest, ¬ StartsWith [.keyword .elseWord] rest → Statement us rest no) →
      StatementAround eof core body true
        (word :: opening :: (cs ++ closing :: (ts ++ otherwise :: us))) (.branch c yes (some no))

end

section Around

variable {eof : Token} {core : List Token} {body : List Stmt} {errors : List StaticError}

mutual

/-- If `core` passes, the declarations around it pass. -/
theorem RowAround.passes (heof : eof.kind = .eof) (hcore : Passes true core body errors) :
    ∀ {takes : Bool} {ts : List Token} {ss : List Stmt}, RowAround eof core body takes ts ss →
      Passes takes ts ss errors
  | _, _, _, .core => hcore
  | _, _, _, .behind hus h => (hus.passes heof).append (h.passes heof hcore)
  | _, _, _, .before h hus => by
    have hrow := (h.passes heof hcore).append (hus.passes heof)
    rwa [List.append_nil] at hrow
  | _, _, _, @RowAround.function _ _ _ _ _ name _ _ _ _ params _ _ ss hword hname hopening
      hcommas hnames hsize hclosing hleft h hright => by
    -- The function is read up to the inside of its body, and this passes.
    show Passes false _ (some (Stmt.function name params ss)).toList errors
    refine passes_declaration (by rw [hword]; decide) fun last rest _ => ?_
    simp only [List.cons_append, List.append_assoc, List.nil_append]
    refine .succ (.recover (.take (by decide) (by simp [hword]) ?_))
    simp only [Token.is, hword]
    refine .succ (.demand (by decide) hname (.demand (by decide) hopening ?_))
    refine .parameters hcommas hnames hsize hclosing ?_
    refine .demand (by decide) hclosing (.demand (by decide) hleft ?_)
    exact ((h.passes heof hcore).block hright rest).yields .pure
  | _, _, _, .statement h => (h.stands heof hcore).passes

/-- If `core` passes, a statement around it is read as one statement. -/
theorem StatementAround.stands (heof : eof.kind = .eof) (hcore : Passes true core body errors) :
    ∀ {takes : Bool} {ts : List Token} {s : Stmt}, StatementAround eof core body takes ts s →
      Stands takes ts s errors
  -- Blocks go back to the row inside of them, the others to the statement that holds `core`.
  | _, _, _, .block hleft h hright => by
    refine ⟨by rw [startsWith_cons, hleft]; decide, fun last rest _ => ?_⟩
    rw [List.cons_append, List.append_assoc, List.singleton_append]
    refine .opened (by rw [hleft]; decide) ?_
    simp only [opened, hleft]
    exact .map _ ((h.passes heof hcore).block hright rest)
  | _, _, _, .lead hlead h => .lead hlead (h.stands heof hcore)
  | _, _, _, .ifElse hword hopening hc hclosing h hotherwise hno => by
    refine ⟨by rw [startsWith_cons, hword]; decide, fun last rest hrest => ?_⟩
    simp only [List.cons_append, List.append_assoc]
    refine .opened (by rw [hword]; decide) ?_
    simp only [opened, hword]
    refine .succ (.condition hopening hc hclosing ?_)
    refine ((h.stands heof hcore).gives last _ nofun).yields ?_
    exact .take (by decide) (by simp [hotherwise])
      (.bind ((hno rest (hrest rfl)).complete last) .pure)

end

end Around

/-! ### Whole lists -/

/-- **A broken statement costs only itself.** Let `bad` be any tokens without semicolons, braces,
`for` and end tokens, of which only the first may open a statement and is no `else`. Let `g₁` and
`g₂` be parsed without errors on their own, and let `g₁` hold no end token. Parsed on its own, `bad`
with a semicolon comes to one statement, or to none and one error that stopped the parser. All its
errors are at its tokens. Between `g₁` and `g₂` it comes to the same: the statements of both are
kept, and there are no other errors.

If `g₂` holds no end token either, this is so inside of blocks too, in whatever way they are nested.
The block is kept with these statements, and what follows it is parsed as if it stood alone. -/
theorem broken_statement_confined {bad g₁ g₂ : List Token} {semicolon eof : Token}
    (hbad : ∀ t ∈ bad, t.kind ∉ barred)
    (hlone : ∀ t ∈ bad.tail, t.kind.startsStatement = false)
    (helse : ¬ StartsWith [.keyword .elseWord] bad)
    (hsemicolon : semicolon.kind = .mark .semicolon) (heof : eof.kind = .eof)
    (hg₁ : Complete eof g₁) (hg₂ : (parse (g₂ ++ [eof])).errors = []) :
    let own := parse (bad ++ [semicolon, eof])
    let body := (parse (g₁ ++ [eof])).program ++ (own.program ++ (parse (g₂ ++ [eof])).program)
    own.program.length + own.errors.countP (·.defect.stops) = 1 ∧
    (∀ e ∈ own.errors, ∃ t ∈ bad ++ [semicolon], e = .ofToken t e.defect) ∧
    parse (g₁ ++ (bad ++ semicolon :: (g₂ ++ [eof]))) = ⟨body, own.errors⟩ ∧
    ((∀ t ∈ g₂, t.kind ≠ .eof) →
      ∀ takes ts ss, RowAround eof (g₁ ++ (bad ++ semicolon :: g₂)) body takes ts ss →
        (∀ last right rest, right.kind = .mark .rightBrace →
          Gives block ⟨last, ts ++ right :: rest⟩ ss own.errors ⟨last, rest⟩) ∧
        ∀ b, b ≠ [] → Unclaimed takes b →
          parse (ts ++ b) = ⟨ss ++ (parse b).program, own.errors ++ (parse b).errors⟩) := by
  intro own body
  let z : Scrap := ⟨bad, semicolon, hbad, hsemicolon⟩
  -- The three parts pass one behind the other, and with `g₂` closed they pass inside of blocks too.
  obtain ⟨hone, hlocated, hscrap⟩ := z.parse_passes heof helse hlone
  have hfront : Passes true (g₁ ++ (bad ++ [semicolon]))
      ((parse (g₁ ++ [eof])).program ++ own.program) own.errors :=
    (hg₁.passes heof).append hscrap
  refine ⟨hone, hlocated, ?_, fun hinner takes ts ss hrow => ?_⟩
  · have hwhole := hfront.parse_eq (by simp) fun _ => calm_of_clean heof hg₂
    rw [hg₂, List.append_nil] at hwhole
    simpa [body] using hwhole
  · have hcore : Passes true (g₁ ++ (bad ++ semicolon :: g₂)) body own.errors := by
      have hcore := hfront.append (Complete.passes heof ⟨hinner, hg₂⟩)
      simpa [body] using hcore
    have hpasses := hrow.passes heof hcore
    exact ⟨fun last right rest hright => hpasses.block hright rest, fun b => hpasses.parse_eq⟩

/-- In `{ a; var (; b; } c;` the second statement is dropped for an error at its parenthesis. The
block keeps the other two, and `c;` is parsed behind it. -/
theorem broken_statement_confined_block :
    let word (kind : Kind) (name : String) : Token := ⟨kind, ⟨0, 0, name⟩, none, 1⟩
    let eof := word .eof ""
    let semicolon := word (.mark .semicolon) ";"
    let left := word (.mark .leftBrace) "\x7b"
    let right := word (.mark .rightBrace) "\x7d"
    let bad := [word (.keyword .varWord) "var", word (.mark .leftParen) "("]
    let good (name : String) := [word .identifier name, semicolon]
    let inside := good "a" ++ (bad ++ semicolon :: good "b")
    let own := parse (bad ++ [semicolon, eof])
    let kept := (parse (good "a" ++ [eof])).program ++
      (own.program ++ (parse (good "b" ++ [eof])).program)
    let c := good "c" ++ [eof]
    parse (left :: (inside ++ [right]) ++ c)
        = ⟨[.block kept] ++ (parse c).program, own.errors ++ (parse c).errors⟩ ∧
      kept.length = 2 ∧ own.errors.map (·.defect) = [.expectedName "variable"] := by
  intro word eof semicolon left right bad good inside own kept c
  have ha : Complete eof (good "a") := ⟨by decide, by decide +kernel⟩
  have hb : Complete eof (good "b") := ⟨by decide, by decide +kernel⟩
  have hbad : ∀ t ∈ bad, t.kind ∉ barred := by decide
  have hlone : ∀ t ∈ bad.tail, t.kind.startsStatement = false := by decide
  have helse : ¬ StartsWith [.keyword .elseWord] bad := by simp [bad, word]
  have hsemicolon : semicolon.kind = .mark .semicolon := rfl
  obtain ⟨-, -, -, hnested⟩ :=
    broken_statement_confined hbad hlone helse hsemicolon rfl ha hb.clean
  have hleft : left.kind = .mark .leftBrace := rfl
  have hright : right.kind = .mark .rightBrace := rfl
  obtain ⟨-, hparse⟩ := hnested hb.inner false _ _ (.statement (.block hleft .core hright))
  exact ⟨hparse c (by simp [c]) nofun, by decide +kernel, by decide +kernel⟩

/-- An end token in front of it hides a statement, broken or not, and all that follows it: an end
token among the tokens of `g₁` would not do. -/
theorem end_hides_statements : ¬ ∀ (bad g₁ g₂ : List Token) (semicolon eof : Token),
    (∀ t ∈ bad, t.kind ∉ barred) → (∀ t ∈ bad.tail, t.kind.startsStatement = false) →
    ¬ StartsWith [.keyword .elseWord] bad → semicolon.kind = .mark .semicolon → eof.kind = .eof →
    (parse (g₁ ++ [eof])).errors = [] → (parse (g₂ ++ [eof])).errors = [] →
    ∃ own : List Stmt, own.length ≤ 1 ∧
      (parse (g₁ ++ (bad ++ semicolon :: (g₂ ++ [eof])))).program
        = (parse (g₁ ++ [eof])).program ++ (own ++ (parse (g₂ ++ [eof])).program) := by
  intro h
  let word (kind : Kind) (name : String) : Token := ⟨kind, ⟨0, 0, name⟩, none, 1⟩
  let eof := word .eof ""
  let semicolon := word (.mark .semicolon) ";"
  let x := word .identifier "x"
  let y := word .identifier "y"
  obtain ⟨own, -, hprogram⟩ := h [x] [eof] [y, semicolon] semicolon eof (by decide) (by decide)
    (by simp [x, word]) rfl rfl (by decide +kernel) (by decide +kernel)
  -- The end token in front hides the statement that is counted here.
  have hlength := congrArg List.length hprogram
  have hnone : (parse ([eof] ++ ([x] ++ semicolon :: ([y, semicolon] ++ [eof])))).program.length
      = 0 := by decide +kernel
  have hone : (parse ([y, semicolon] ++ [eof])).program.length = 1 := by decide +kernel
  rw [hnone] at hlength
  simp only [List.length_append, hone] at hlength
  omega

end Scriptlet
