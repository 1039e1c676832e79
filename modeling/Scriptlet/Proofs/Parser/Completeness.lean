import Mathlib.Order.Filter.AtTopBot.Basic
import Scriptlet.Proofs.Parser.Grammar

/-!
# `Scriptlet.Proofs.Parser.Completeness`: what the grammar derives is read

Tokens that spell a tree are read as this tree, without an error, if the parser has steps
enough (`Yields`). No bound on the steps is kept here.

The parsers are greedy: an operator loop reads on as long as an operator of its level
follows. `Derives.extends` says what this needs, by induction on the derivation: to read
`ts ++ rest` on a rung is to read `ts` and to go on with the loop of the rung at `rest`,
unless `rest` starts with what a tighter rung would read as well (`Rung.bounds`). An
expression whose rest starts with nothing that continues it is read as it is
(`Derives.complete`). Statements follow by induction on their derivations.

Where the parser looks at the first token to decide what comes, `Derives.starts` and
`Declaration.starts` say which tokens come first.
-/

set_option autoImplicit false

namespace Scriptlet

/-! ### First tokens -/

/-- What comes first still does with more tokens behind it. -/
theorem StartsWith.append {kinds : List Kind} {ts : List Token} (h : StartsWith kinds ts)
    (us : List Token) : StartsWith kinds (ts ++ us) := by
  obtain ⟨t, rest, rfl, ht⟩ := h
  exact ⟨t, rest ++ us, rfl, ht⟩

/-- A list starts with kinds of one set only. -/
theorem StartsWith.disjoint {kinds others : List Kind} {ts : List Token}
    (h : StartsWith kinds ts) (hdisjoint : ∀ kind ∈ kinds, kind ∉ others) :
    ¬ StartsWith others ts := by
  obtain ⟨t, rest, rfl, ht⟩ := h
  rw [startsWith_cons]
  exact hdisjoint t.kind ht

namespace Parser

variable {α β : Type}

/-! ### Parsers with steps enough -/

/-- With steps enough, the parser reads a value cleanly. -/
def Yields (p : Nat → Parser α) (c : Cursor) (value : α) (c' : Cursor) : Prop :=
  ∀ᶠ n in Filter.atTop, p n c = .done value [] c'

/-- One step more or less does not matter. -/
theorem yields_succ {p : Nat → Parser α} {c c' : Cursor} {v : α} :
    Yields (fun n => p (n + 1)) c v c' ↔ Yields p c v c' := by
  unfold Yields
  conv_rhs => rw [← Filter.map_add_atTop_eq_nat 1]
  rfl

alias ⟨Yields.succ, Yields.pred⟩ := yields_succ

/-- Giving a value takes no step at all. -/
theorem Yields.pure {v : α} {c : Cursor} : Yields (fun _ => Pure.pure v) c v c :=
  Filter.Eventually.of_forall fun _ => rfl

/-- A parser that reads nothing stays where it is. -/
theorem Yields.of_pure {v w : α} {c c' : Cursor}
    (h : Yields (fun _ => Pure.pure v) c w c') : w = v ∧ c' = c := by
  obtain ⟨n, hn⟩ := h.exists
  cases hn
  exact ⟨rfl, rfl⟩

/-- The rule for two parsers in a row. -/
theorem Yields.bind {p : Nat → Parser α} {f : Nat → α → Parser β} {c c₁ c₂ : Cursor} {v : α}
    {w : β} (hp : Yields p c v c₁) (hf : Yields (fun n => f n v) c₁ w c₂) :
    Yields (fun n => p n >>= f n) c w c₂ := by
  filter_upwards [hp, hf] with n hp hf
  rw [bind_of_clean hp]
  exact hf

/-- A value that is changed is read with as many steps. -/
theorem Yields.map {p : Nat → Parser α} {g : α → β} {c c₁ : Cursor} {v : α}
    (h : Yields p c v c₁) : Yields (fun n => g <$> p n) c (g v) c₁ :=
  h.bind .pure

/-- A parser that reads cleanly has nothing to recover from. -/
theorem Yields.recover {p : Nat → Parser α} {c c₁ : Cursor} {v : α} (h : Yields p c v c₁) :
    Yields (fun n => Parser.recover (p n)) c (some v) c₁ := by
  filter_upwards [h] with n h
  unfold Parser.recover
  rw [h]

/-- Parsers that reply alike at a place read the same there. -/
theorem Yields.of_eq {p q : Nat → Parser α} {c c₁ : Cursor} {v : α} (h : ∀ n, p n c = q n c)
    (hq : Yields q c v c₁) : Yields p c v c₁ := by
  filter_upwards [hq] with n hq
  rw [h n, hq]

/-- A token that is looked for and comes first is taken. -/
theorem Yields.take {kinds : List Kind} {f : Nat → Option Token → Parser β}
    {last t : Token} {rest : List Token} {w : β} {c' : Cursor} (hkinds : .eof ∉ kinds)
    (ht : t.kind ∈ kinds) (h : Yields (fun n => f n (some t)) ⟨last, rest⟩ w c') :
    Yields (fun n => take? kinds >>= f n) ⟨last, t :: rest⟩ w c' :=
  .bind (.of_forall fun _ => take?_of_mem hkinds ht) h

/-- A token that is looked for and does not come first is left out. -/
theorem Yields.skip {kinds : List Kind} {f : Nat → Option Token → Parser β} {c c' : Cursor}
    {w : β} (hnot : ¬ StartsWith kinds c.rest) (h : Yields (fun n => f n none) c w c') :
    Yields (fun n => take? kinds >>= f n) c w c' :=
  .bind (.of_forall fun _ => take?_of_not hnot) h

/-- A token that has to be there, and is. -/
theorem Yields.demand {kind : Kind} {defect : Defect} {f : Nat → Token → Parser β}
    {last t : Token} {rest : List Token} {w : β} {c' : Cursor} (hkind : kind ≠ .eof)
    (ht : t.kind = kind) (h : Yields (fun n => f n t) ⟨last, rest⟩ w c') :
    Yields (fun n => Parser.demand kind defect >>= f n) ⟨last, t :: rest⟩ w c' :=
  .bind (.of_forall fun _ => demand_of_kind hkind ht) h

/-- A look at the first token. -/
theorem Yields.check {kind : Kind} {f : Nat → Bool → Parser β} {c c' : Cursor} {w : β}
    (h : Yields (fun n => f n (c.check kind)) c w c') :
    Yields (fun n => Parser.check kind >>= f n) c w c' :=
  .bind (.of_forall fun _ => check_apply kind c) h

end Parser

namespace Grammar

open Scriptlet.Parser

/-! ### The rungs of the ladder -/

namespace Rung

/-- What holds of the tightest rung, and of a rung if of the next one, holds of all. -/
theorem ladder {motive : Rung → Prop} (hprimary : motive .primary)
    (hlift : ∀ r : Rung, motive r.tighter → motive r) (r : Rung) : motive r := by
  have hunary : motive .unary := hlift .unary (hlift .call hprimary)
  have hterm : motive .term := hlift .term (hlift .factor hunary)
  have hequality : motive .equality := hlift .equality (hlift .comparison hterm)
  have hdisjunction := hlift .disjunction (hlift .conjunction hequality)
  cases r with
  | primary => exact hprimary
  | call => exact hlift .call hprimary
  | unary => exact hunary
  | factor => exact hlift .factor hunary
  | term => exact hterm
  | comparison => exact hlift .comparison hterm
  | equality => exact hequality
  | conjunction => exact hlift .conjunction hequality
  | disjunction => exact hdisjunction
  | assignment => exact hlift .assignment hdisjunction

/-- The kinds of token that an operand starts with. -/
def operandOpeners : List Kind :=
  [.keyword .falseWord, .keyword .trueWord, .keyword .nilWord, .number, .string,
    .identifier, .mark .leftParen]

/-- The kinds of token that an expression of this rung starts with. -/
def openers : Rung → List Kind
  | call | primary => operandOpeners
  | _ => .mark .bang :: .mark .minus :: operandOpeners

/-- The kinds of token with which an expression of this rung goes on. -/
def continuations : Rung → List Kind
  | primary => []
  | assignment => .mark .equal :: disjunction.levels.flatMap (·.operators) ++ [.mark .leftParen]
  | r => r.levels.flatMap (·.operators) ++ [.mark .leftParen]

/-- The kinds of token that an operand of this rung goes on with, so that they are out of
reach of the rung itself. -/
def bounds : Rung → List Kind
  | assignment => assignment.continuations
  | r => r.tighter.continuations

/-- What a tighter rung starts with, this one may start with. -/
theorem openers_tighter_subset (r : Rung) : r.tighter.openers ⊆ r.openers := by
  cases r <;> decide

/-- What an operand goes on with, an expression of the rung goes on with. -/
theorem bounds_subset (r : Rung) : r.bounds ⊆ r.continuations := by
  cases r <;> decide

/-- An operand goes on with what is out of reach of the rung. -/
theorem tighter_continuations_subset (r : Rung) : r.tighter.continuations ⊆ r.bounds := by
  cases r <;> decide

/-- An expression goes on with an operator of its rung. -/
theorem operators_subset (r : Rung) : r.operators ⊆ r.continuations := by
  cases r <;> decide

/-- An operator of a rung does not continue its operands. -/
theorem operators_notMem_bounds (r : Rung) : ∀ kind ∈ r.operators, kind ∉ r.bounds := by
  cases r <;> decide

/-- The parser of a rung. -/
def parser : Rung → Nat → Parser Expr
  | assignment => expression
  | call => fun n => Parser.primary n >>= calls n
  | primary => Parser.primary
  | r => fun n => binary n r.levels

/-- The loop of a rung, which goes on behind a left operand. -/
def loop : Rung → Nat → Expr → Parser Expr
  | call => calls
  | r => fun n left =>
    if r.operators = [] then pure left else binaryRest n r.level r.tighter.levels left

/-- On a rung with operators the loop reads these. -/
theorem loop_of_operators {r : Rung} (h : r.operators ≠ []) :
    r.loop = fun n left => binaryRest n r.level r.tighter.levels left := by
  cases r with
  | assignment | unary | call | primary => exact absurd rfl h
  | _ => rfl

/-- The operands of a rung with operators are read by levels. -/
theorem parser_tighter {r : Rung} (h : r.operators ≠ []) :
    r.tighter.parser = fun n => binary n r.tighter.levels := by
  cases r with
  | assignment | unary | call | primary => exact absurd rfl h
  | _ => rfl

/-- A rung with operators reads an operand and then its loop. -/
theorem parser_succ {r : Rung} (h : r.operators ≠ []) (n : Nat) :
    r.parser (n + 1) = r.tighter.parser n >>= r.loop n := by
  cases r with
  | assignment | unary | call | primary => exact absurd rfl h
  | _ => rfl

end Rung

/-- Tokens are read as an expression on a rung, and the loop of the rung goes on behind
them. -/
def Extends (r : Rung) (ts : List Token) (e : Expr) : Prop :=
  ∀ (last : Token) (rest : List Token) (e' : Expr) (c' : Cursor),
    ¬ StartsWith r.bounds rest → Yields (fun n => r.loop n e) ⟨last, rest⟩ e' c' →
    Yields r.parser ⟨last, ts ++ rest⟩ e' c'

/-- A loop stops where nothing goes on with its rung. -/
theorem loop_stops (r : Rung) (e : Expr) {c : Cursor}
    (h : ¬ StartsWith r.continuations c.rest) : Yields (fun n => r.loop n e) c e c := by
  -- A rung without operators has no loop, but for the calls, which wait for a parenthesis.
  by_cases hr : r.operators = []
  · cases r with
    | call => exact .succ (.skip h .pure)
    | assignment | unary | primary => exact .pure
    | _ => cases hr
  · rw [Rung.loop_of_operators hr]
    exact .succ (.skip (fun hop => h (hop.mono r.operators_subset)) .pure)

/-- An expression with nothing behind it that goes on with it is read as it is. -/
theorem Extends.complete {r : Rung} {ts : List Token} {e : Expr} (h : Extends r ts e)
    {last : Token} {rest : List Token} (hrest : ¬ StartsWith r.continuations rest) :
    Yields r.parser ⟨last, ts ++ rest⟩ e ⟨last, rest⟩ :=
  h _ _ _ _ (fun hstart => hrest (hstart.mono r.bounds_subset)) (loop_stops r e hrest)

/-- An expression starts with a token that its rung allows there. -/
theorem Derives.starts {r : Rung} {ts : List Token} {e : Expr} (h : Derives r ts e) :
    StartsWith r.openers ts := by
  -- An operator stands behind its first operand, so the row starts as this operand does.
  induction h with
  | falsehood ht | truth ht | nothing ht | name ht =>
      rw [startsWith_cons, ht]
      decide
  | constant ht =>
      rw [startsWith_cons]
      rcases ht with ht | ht <;> rw [ht] <;> decide
  | group hopening _ _ _ =>
      rw [startsWith_cons, hopening]
      decide
  | call _ _ _ _ _ _ ih _ => exact ih.append _
  | unary hop _ _ =>
      rw [startsWith_cons]
      exact List.mem_append_left _ hop
  | logical _ _ _ _ ih _ => exact ih.append _
  | binary _ _ _ _ ih _ => exact ih.append _
  | assign hname _ _ _ =>
      rw [startsWith_cons, hname]
      decide
  | lift _ ih => exact ih.mono (Rung.openers_tighter_subset _)

/-- What is read on the next rung is read on this one. -/
theorem extends_lift {r : Rung} {ts : List Token} {e : Expr} (hd : Derives r.tighter ts e)
    (h : Extends r.tighter ts e) : Extends r ts e := by
  intro last rest e' c' hrest hloop
  -- What `rest` may not start with here covers all that goes on with the operand, so the
  -- operand is read as it is and the loop of this rung takes over.
  have hoperand : Yields r.tighter.parser ⟨last, ts ++ rest⟩ e ⟨last, rest⟩ :=
    h.complete fun hstart => hrest (hstart.mono r.tighter_continuations_subset)
  by_cases hr : r.operators = []
  · cases r with
    | primary => exact h last rest e' c' hrest hloop
    | call => exact .bind hoperand hloop
    | unary =>
        obtain ⟨rfl, rfl⟩ := hloop.of_pure
        -- The operand is of a tighter rung, which no sign can start.
        have hsign : ¬ StartsWith [.mark .bang, .mark .minus] (ts ++ rest) :=
          (hd.starts.append rest).disjoint (by decide)
        exact .succ (.succ (.skip hsign hoperand))
    | assignment =>
        obtain ⟨rfl, rfl⟩ := hloop.of_pure
        -- An equality sign behind it would turn it into the target of an assignment.
        have hequal : ¬ StartsWith [.mark .equal] rest :=
          fun hstart => hrest (hstart.mono (by decide))
        exact .succ (.bind hoperand (.skip hequal .pure))
    | _ => cases hr
  · refine .succ ?_
    simp only [Rung.parser_succ hr]
    exact .bind hoperand hloop

/-- A constant, a name, and anything else that is read as an operand on the tightest rung
is read on every rung. -/
theorem extends_of_primary {ts : List Token} {e : Expr} (hd : Derives .primary ts e)
    (h : Extends .primary ts e) (r : Rung) : Extends r ts e := by
  -- The next rung up needs the derivation too, for the tokens it starts with.
  have hboth : Derives r ts e ∧ Extends r ts e := by
    induction r using Rung.ladder with
    | hprimary => exact ⟨hd, h⟩
    | hlift r ih => exact ⟨.lift ih.1, extends_lift ih.1 ih.2⟩
  exact hboth.2

/-- A token that stands for a constant is read as this constant. -/
theorem extends_constant {t : Token} {value : Literal} (h : t.constant? = some value) :
    Extends .primary [t] (.literal value) := by
  intro last rest e' c' _ hloop
  obtain ⟨rfl, rfl⟩ := hloop.of_pure
  have hne : t.kind ≠ .eof := fun heof => by simp [Token.constant?, heof] at h
  refine .succ (.of_forall fun n => ?_)
  obtain ⟨value', hvalue, heq⟩ | ⟨hkind, -⟩ | ⟨hkind, -⟩ | ⟨hnone, -⟩ :=
    primary_cases n ⟨last, t :: rest⟩
  · cases h.symm.trans hvalue
    exact heq.trans (by rw [Cursor.advance_cons hne])
  · simp [Token.constant?, show t.kind = _ from hkind] at h
  · simp [Token.constant?, show t.kind = _ from hkind] at h
  · cases h.symm.trans hnone

/-- A name is read as the variable. -/
theorem extends_name {t : Token} (h : t.kind = .identifier) :
    Extends .primary [t] (.get t) := by
  intro last rest e' c' _ hloop
  obtain ⟨rfl, rfl⟩ := hloop.of_pure
  refine .succ (.of_forall fun n => ?_)
  obtain ⟨value, hvalue, -⟩ | ⟨-, heq⟩ | ⟨hkind, -⟩ | ⟨-, hkind, -⟩ :=
    primary_cases n ⟨last, t :: rest⟩
  · simp [Token.constant?, h] at hvalue
  · exact heq.trans (by rw [Cursor.advance_cons (by simp [h])]; rfl)
  · cases h.symm.trans hkind
  · exact absurd h hkind

/-- An expression in parentheses is read as a group. -/
theorem extends_group {opening closing : Token} {ts : List Token} {e : Expr}
    (hopening : opening.kind = .mark .leftParen) (h : Extends .assignment ts e)
    (hclosing : closing.kind = .mark .rightParen) :
    Extends .primary (opening :: (ts ++ [closing])) (.group e) := by
  intro last rest e' c' _ hloop
  obtain ⟨rfl, rfl⟩ := hloop.of_pure
  -- The closing parenthesis goes on with no expression, whatever stands behind it.
  have hinner : Yields expression ⟨last, ts ++ closing :: rest⟩ e ⟨last, closing :: rest⟩ :=
    h.complete (by rw [startsWith_cons, hclosing]; decide)
  have hgroup : Yields (fun n => take? [.mark .leftParen] >>= grouped n)
      ⟨last, opening :: (ts ++ closing :: rest)⟩ (.group e) ⟨last, rest⟩ :=
    .take (by decide) (by simp [hopening]) (.bind hinner (.demand (by decide) hclosing .pure))
  refine .succ ?_
  filter_upwards [hgroup] with n hgroup
  rw [List.cons_append, List.append_assoc, List.singleton_append]
  obtain ⟨value, hvalue, -⟩ | ⟨hkind, -⟩ | ⟨-, heq⟩ | ⟨-, -, hkind, -⟩ :=
    primary_cases n ⟨last, opening :: (ts ++ closing :: rest)⟩
  · simp [Token.constant?, hopening] at hvalue
  · cases hopening.symm.trans hkind
  · exact heq.trans hgroup
  · exact absurd hopening hkind

/-- Arguments and parameters: items with commas between them, up to a parenthesis, are read
one after the other. -/
theorem items_complete {α : Type} {list : Nat → Nat → Parser (List α)}
    {one : Nat → Parser α} {defect : Defect}
    (hlist : ∀ n count, list (n + 1) count = checkLimit count defect >>= fun _ =>
      one n >>= fun item => take? [.mark .comma] >>= fun comma =>
        match comma with
        | none => pure [item]
        | some _ => list n (count + 1) >>= fun more => pure (item :: more))
    {items : List (List Token × α)} {last closing : Token} {rest : List Token}
    (hclosing : closing.kind = .mark .rightParen)
    (hone : ∀ item ∈ items, ∀ after, StartsWith [.mark .comma, .mark .rightParen] after →
      Yields one ⟨last, item.1 ++ after⟩ item.2 ⟨last, after⟩)
    {ts : List Token} (hcommas : CommaList (items.map (·.1)) ts) (hne : items ≠ [])
    {count : Nat} (hsize : count + items.length ≤ 255) :
    Yields (fun n => list n count) ⟨last, ts ++ closing :: rest⟩ (items.map (·.2))
      ⟨last, closing :: rest⟩ := by
  -- On the items. With each one read the count grows by one, and the sum of both is kept.
  induction items generalizing ts count with
  | nil => exact absurd rfl hne
  | cons item items ih =>
      rw [List.length_cons] at hsize
      have hlimit : count < argumentLimit := by
        show count < 255
        omega
      refine .succ ?_
      simp only [hlist]
      refine .bind (v := ()) (.of_forall fun _ => checkLimit_clean.2 ⟨hlimit, rfl⟩) ?_
      have hfirst := hone item (by simp)
      cases items with
      | nil =>
          cases hcommas
          exact .bind (hfirst _ (by simp [hclosing])) (.skip (by simp [hclosing]) .pure)
      | cons next items =>
          cases hcommas with
          | @more _ _ vs _ comma hcomma hmore =>
              have hothers := ih (fun other hother => hone other (List.mem_cons_of_mem _ hother))
                hmore (by simp) (show count + 1 + _ ≤ 255 by omega)
              rw [List.append_assoc, List.cons_append]
              exact .bind (hfirst _ (by simp [hcomma]))
                (.take (by decide) (by simp [hcomma]) (.bind hothers .pure))

/-- A list starts as its first item does. -/
theorem CommaList.starts {us ts : List Token} {others : List (List Token)}
    {kinds : List Kind} (h : CommaList (us :: others) ts) (hus : StartsWith kinds us) :
    StartsWith kinds ts := by
  cases h with
  | one => exact hus
  | more => exact hus.append _

/-- The same for items that may be missing altogether. -/
theorem optionalItems_complete {α β : Type} {list : Nat → Nat → Parser (List α)}
    {one : Nat → Parser α} {defect : Defect} {f : Nat → List α → Parser β}
    (hlist : ∀ n count, list (n + 1) count = checkLimit count defect >>= fun _ =>
      one n >>= fun item => take? [.mark .comma] >>= fun comma =>
        match comma with
        | none => pure [item]
        | some _ => list n (count + 1) >>= fun more => pure (item :: more))
    {items : List (List Token × α)} {last closing : Token} {rest : List Token}
    (hclosing : closing.kind = .mark .rightParen)
    (hone : ∀ item ∈ items, ∀ after, StartsWith [.mark .comma, .mark .rightParen] after →
      Yields one ⟨last, item.1 ++ after⟩ item.2 ⟨last, after⟩)
    (hstarts : ∀ item ∈ items, StartsWith Rung.assignment.openers item.1)
    {ts : List Token} (hcommas : CommaList (items.map (·.1)) ts) (hsize : items.length ≤ 255)
    {w : β} {c' : Cursor}
    (h : Yields (fun n => f n (items.map (·.2))) ⟨last, closing :: rest⟩ w c') :
    Yields (fun n => Parser.check (.mark .rightParen) >>= fun closes =>
      if closes then pure [] >>= f n else list n 0 >>= f n)
      ⟨last, ts ++ closing :: rest⟩ w c' := by
  refine .check ?_
  cases items with
  | nil =>
      cases hcommas
      rw [(Cursor.check_eq_true (by decide)).2 (by simp [hclosing])]
      exact .bind .pure h
  | cons item items =>
      -- No item starts with the closing parenthesis by which the parser sees an empty list.
      have hfirst : StartsWith Rung.assignment.openers (ts ++ closing :: rest) :=
        (hcommas.starts (hstarts item (by simp))).append _
      rw [(Cursor.check_eq_false (by decide)).2 (hfirst.disjoint (by decide))]
      exact .bind (items_complete hlist hclosing hone hcommas (by simp) (by simpa using hsize)) h

/-- A call of what is read on its rung is read there. -/
theorem extends_call {opening closing : Token} {fs ts : List Token} {f : Expr}
    {args : List (List Token × Expr)} (hf : Extends .call fs f)
    (hopening : opening.kind = .mark .leftParen) (hcommas : CommaList (args.map (·.1)) ts)
    (hderives : ∀ arg ∈ args, Derives .assignment arg.1 arg.2)
    (hargs : ∀ arg ∈ args, Extends .assignment arg.1 arg.2) (hsize : args.length ≤ 255)
    (hclosing : closing.kind = .mark .rightParen) :
    Extends .call (fs ++ opening :: (ts ++ [closing])) (.call f closing (args.map (·.2))) := by
  intro last rest e' c' _ hloop
  have hone : ∀ arg ∈ args, ∀ after, StartsWith [.mark .comma, .mark .rightParen] after →
      Yields expression ⟨last, arg.1 ++ after⟩ arg.2 ⟨last, after⟩ :=
    fun arg harg after hafter => (hargs arg harg).complete (hafter.disjoint (by decide))
  have hcalls : Yields (fun n => calls n f) ⟨last, opening :: (ts ++ closing :: rest)⟩ e' c' :=
    .succ (.take (by decide) (by simp [hopening])
      (optionalItems_complete (fun _ _ => rfl) hclosing hone
        (fun arg harg => (hderives arg harg).starts) hcommas hsize
        (.demand (by decide) hclosing hloop)))
  rw [List.append_assoc, List.cons_append, List.append_assoc, List.singleton_append]
  -- The rung of calls has no tighter continuations: the callee may be followed by anything.
  exact hf _ _ _ _ (by rintro ⟨_, _, -, h⟩; cases h) hcalls

/-- An operator in front of an operand that is read is read on the rung of such operators. -/
theorem extends_unary {op : Token} {ts : List Token} {e : Expr}
    (hop : op.kind ∈ [.mark .bang, .mark .minus]) (h : Extends .unary ts e) :
    Extends .unary (op :: ts) (.unary op e) := by
  intro last rest e' c' hrest hloop
  obtain ⟨rfl, rfl⟩ := hloop.of_pure
  have hoperand : Yields (fun n => Parser.unary n) ⟨last, ts ++ rest⟩ e ⟨last, rest⟩ :=
    (h.complete hrest).pred
  exact .succ (.succ (.take (by decide) hop (.bind hoperand .pure)))

/-- An operator between operands that are read is read on its rung. -/
theorem extends_join {r : Rung} {op : Token} {ls rs : List Token} {a b : Expr}
    (ha : Extends r ls a) (hop : op.kind ∈ r.operators) (hb : Extends r.tighter rs b) :
    Extends r (ls ++ op :: rs) (r.level.join a op b) := by
  intro last rest e' c' hrest hloop
  have hr : r.operators ≠ [] := List.ne_nil_of_mem hop
  have hright : Yields r.tighter.parser ⟨last, rs ++ rest⟩ b ⟨last, rest⟩ :=
    hb.complete fun hstart => hrest (hstart.mono r.tighter_continuations_subset)
  rw [List.append_assoc, List.cons_append]
  -- The left operand is read by the same loop, which then goes on with the operator. This is
  -- what makes the operators of a rung group to the left.
  refine ha _ _ _ _ (by rw [startsWith_cons]; exact r.operators_notMem_bounds _ hop) ?_
  rw [Rung.loop_of_operators hr] at hloop ⊢
  rw [Rung.parser_tighter hr] at hright
  exact .succ (.take r.eof_notMem_operators hop (.bind hright hloop))

/-- A name, an equality sign and what is read as an expression are read as an assignment. -/
theorem extends_assign {name equals : Token} {ts : List Token} {e : Expr}
    (hname : name.kind = .identifier) (hequals : equals.kind = .mark .equal)
    (h : Extends .assignment ts e) :
    Extends .assignment (name :: equals :: ts) (.set name e) := by
  intro last rest e' c' hrest hloop
  obtain ⟨rfl, rfl⟩ := hloop.of_pure
  -- The target is read as a tighter expression before the equality sign is seen.
  have htarget : Yields (fun n => binary n binaryLevels)
      ⟨last, name :: equals :: (ts ++ rest)⟩ (.get name) ⟨last, equals :: (ts ++ rest)⟩ :=
    (extends_of_primary (.name hname) (extends_name hname) .disjunction).complete
      (by rw [startsWith_cons, hequals]; decide)
  have hvalue : Yields expression ⟨last, ts ++ rest⟩ e ⟨last, rest⟩ := h.complete hrest
  exact .succ (.bind htarget (.take (by decide) (by simp [hequals]) (.bind hvalue .pure)))

/-- Tokens that spell an expression are read as this expression. -/
theorem Derives.extends {r : Rung} {ts : List Token} {e : Expr} (h : Derives r ts e) :
    Extends r ts e := by
  induction h with
  | falsehood ht | truth ht | nothing ht =>
      exact extends_constant (by simp [Token.constant?, ht])
  | constant ht =>
      exact extends_constant (by rcases ht with ht | ht <;> simp [Token.constant?, ht])
  | name ht => exact extends_name ht
  | group hopening _ hclosing ih => exact extends_group hopening ih hclosing
  | call _ hopening hcommas hargs hsize hclosing ihf ihargs =>
      exact extends_call ihf hopening hcommas hargs ihargs hsize hclosing
  | unary hop _ ih => exact extends_unary hop ih
  | logical hr _ hop _ iha ihb | binary hr _ hop _ iha ihb =>
      have hjoin := extends_join iha hop ihb
      simpa [Level.join, Rung.level, hr] using hjoin
  | assign hname hequals _ ih => exact extends_assign hname hequals ih
  | lift hd ih => exact extends_lift hd ih

/-- Tokens that spell an expression are read as this expression, unless what follows goes on
with it. -/
theorem Derives.complete {ts : List Token} {e : Expr} (h : Derives .assignment ts e)
    {kind : Kind} (hkind : kind ∉ Rung.assignment.continuations) {last t : Token}
    (ht : t.kind = kind) {rest : List Token} :
    Yields expression ⟨last, ts ++ t :: rest⟩ e ⟨last, t :: rest⟩ :=
  h.extends.complete (by rw [startsWith_cons, ht]; exact hkind)

/-! ### Statements -/

/-- A variable declaration behind its word is read as it is spelled, whatever stands behind its
semicolon. -/
theorem Binding.complete {ts : List Token} {s : Stmt} (h : Binding ts s) {last : Token}
    {rest : List Token} :
    Yields variableDeclaration ⟨last, ts ++ rest⟩ s ⟨last, rest⟩ := by
  cases h with
  -- Behind the name comes the semicolon, so that no equality sign is found.
  | bare hname hsemicolon =>
      exact .demand (by decide) hname (.skip (by simp [hsemicolon])
        (.bind .pure (.demand (by decide) hsemicolon .pure)))
  | valued hname hequals hvalue hsemicolon =>
      rw [List.cons_append, List.cons_append, List.append_assoc, List.singleton_append]
      exact .demand (by decide) hname (.take (by decide) (by simp [hequals])
        (.bind (.map (hvalue.complete (by decide) hsemicolon))
          (.demand (by decide) hsemicolon .pure)))

/-- An expression with its semicolon, which goes on with no expression. -/
theorem expressionStatement_complete {ts : List Token} {e : Expr}
    (h : Derives .assignment ts e) {last semicolon : Token}
    (hsemicolon : semicolon.kind = .mark .semicolon) {rest : List Token} :
    Yields expressionStatement ⟨last, ts ++ semicolon :: rest⟩ (.expression e)
      ⟨last, rest⟩ :=
  .bind (h.complete (by decide) hsemicolon) (.demand (by decide) hsemicolon .pure)

/-- A clause in front of a token with which no expression starts or goes on. -/
theorem Clause.complete {ts : List Token} {e : Option Expr} (h : Clause ts e) {kind : Kind}
    (hkind : kind ∉ .eof :: (Rung.assignment.openers ++ Rung.assignment.continuations))
    {last closing : Token} (hclosing : closing.kind = kind) {rest : List Token} :
    Yields (fun n => expressionBefore n kind) ⟨last, ts ++ closing :: rest⟩ e
      ⟨last, closing :: rest⟩ := by
  simp only [List.mem_cons, List.mem_append, not_or] at hkind
  obtain ⟨hne, hopener, hcontinuation⟩ := hkind
  refine .check ?_
  cases h with
  | absent =>
      rw [(Cursor.check_eq_true hne).2 (by simp [hclosing])]
      exact .pure
  | present he =>
      -- The parser takes the clause for absent only if the closing token comes first.
      have hfirst : ¬ StartsWith [kind] (ts ++ closing :: rest) :=
        (he.starts.append _).disjoint fun other hother hmem =>
          hopener (List.mem_singleton.1 hmem ▸ hother)
      rw [(Cursor.check_eq_false hne).2 hfirst]
      exact .map (he.complete hcontinuation hclosing)

/-- The first clause of a `for`, up to its semicolon. -/
theorem Initializer.complete {ts : List Token} {init : Option Stmt} (h : Initializer ts init)
    {last : Token} {rest : List Token} :
    Yields forInitializer ⟨last, ts ++ rest⟩ init ⟨last, rest⟩ := by
  cases h with
  | absent hsemicolon => exact .take (by decide) (by simp [hsemicolon]) .pure
  | binding hword hbinding =>
      exact .skip (by simp [hword])
        (.take (by decide) (by simp [hword]) (.map hbinding.complete))
  | @expression semicolon _ _ he hsemicolon =>
      rw [List.append_assoc, List.singleton_append]
      -- An expression starts with neither of the two tokens that are looked for before it.
      have hstarts := he.starts.append (semicolon :: rest)
      exact .skip (hstarts.disjoint (by decide)) (.skip (hstarts.disjoint (by decide))
        (.map (expressionStatement_complete he hsemicolon)))

/-- The kinds of token that a declaration or a statement starts with. -/
def declarationOpeners : List Kind :=
  .keyword .funWord :: .keyword .varWord :: (statementOpeners ++ Rung.assignment.openers)

/-- A statement starts with its word or brace, or as an expression does. -/
theorem Statement.starts {ts rest : List Token} {s : Stmt} (h : Statement ts rest s) :
    StartsWith (statementOpeners ++ Rung.assignment.openers) ts := by
  cases h with
  | expression he _ => exact (he.starts.append _).mono (by decide)
  | block hword _ _ | ifThen hword _ _ _ _ _ | ifElse hword _ _ _ _ _ _
  | loop hword _ _ _ _ | forLoop hword _ _ _ _ _ _ _ | giveBack hword _ _ =>
      rw [startsWith_cons, hword]
      decide

/-- A declaration starts with its word, or as a statement does. -/
theorem Declaration.starts {ts rest : List Token} {s : Stmt} (h : Declaration ts rest s) :
    StartsWith declarationOpeners ts := by
  cases h with
  | function hword _ _ _ _ _ _ _ _ _ | binding hword _ =>
      rw [startsWith_cons, hword]
      decide
  | statement hs => exact hs.starts.mono (by decide)

/-- Where the declarations of a block or of a program end. -/
def Ends (inBlock : Bool) (rest : List Token) : Prop :=
  StartsWith (if inBlock then [.mark .rightBrace] else [.eof]) rest

/-- A statement that its first token opens. -/
theorem opened_complete {word last : Token} {rest : List Token} {s : Stmt} {c' : Cursor}
    (hword : word.kind ∈ statementOpeners)
    (h : Yields (fun n => opened n word) ⟨last, rest⟩ s c') :
    Yields statement ⟨last, word :: rest⟩ s c' :=
  .succ (.take (by decide) hword h)

/-- A condition in parentheses. -/
theorem condition_complete {β : Type} {before behind : String} {f : Nat → Expr → Parser β}
    {opening closing : Token} {cs : List Token} {e : Expr}
    (hopening : opening.kind = .mark .leftParen) (he : Derives .assignment cs e)
    (hclosing : closing.kind = .mark .rightParen) {last : Token} {rest : List Token} {w : β}
    {c' : Cursor} (h : Yields (fun n => f n e) ⟨last, rest⟩ w c') :
    Yields (fun n => expect (.mark .leftParen) before >>= fun _ => expression n >>= fun e =>
      expect (.mark .rightParen) behind >>= fun _ => f n e)
      ⟨last, opening :: (cs ++ closing :: rest)⟩ w c' :=
  .demand (by decide) hopening
    (.bind (he.complete (by decide) hclosing) (.demand (by decide) hclosing h))

/-- The parameters of a function, up to the parenthesis behind them. -/
theorem parameters_complete {β : Type} {f : Nat → List Token → Parser β}
    {params ps : List Token} (hcommas : CommaList (params.map fun p => [p]) ps)
    (hnames : ∀ p ∈ params, p.kind = .identifier) (hsize : params.length ≤ 255)
    {last closing : Token} (hclosing : closing.kind = .mark .rightParen) {rest : List Token}
    {w : β} {c' : Cursor} (h : Yields (fun n => f n params) ⟨last, closing :: rest⟩ w c') :
    Yields (fun n => Parser.check (.mark .rightParen) >>= fun closes =>
      if closes then pure [] >>= f n else parameters n 0 >>= f n)
      ⟨last, ps ++ closing :: rest⟩ w c' := by
  -- A parameter is a name on its own.
  have hone : ∀ item ∈ params.map fun p => ([p], p), ∀ after,
      StartsWith [.mark .comma, .mark .rightParen] after →
      Yields (fun _ => expectName "parameter") ⟨last, item.1 ++ after⟩ item.2 ⟨last, after⟩ := by
    rintro _ hitem after -
    obtain ⟨p, hp, rfl⟩ := List.mem_map.1 hitem
    exact .of_forall fun _ => demand_of_kind (by decide) (hnames p hp)
  have hstarts : ∀ item ∈ params.map fun p => ([p], p),
      StartsWith Rung.assignment.openers item.1 := by
    rintro _ hitem
    obtain ⟨p, hp, rfl⟩ := List.mem_map.1 hitem
    rw [startsWith_cons, hnames p hp]
    decide
  have hitems : (params.map fun p => ([p], p)).map (·.2) = params := by
    simp [Function.comp_def]
  exact optionalItems_complete (fun _ _ => rfl) hclosing hone hstarts
    (by simpa [Function.comp_def] using hcommas) (by simpa using hsize) (by rw [hitems]; exact h)

/-- A block, behind its opening brace. -/
theorem block_complete {ts rest : List Token} {body : List Stmt} {last right : Token}
    (h : Yields (fun n => declarations n true) ⟨last, ts ++ right :: rest⟩ body
      ⟨last, right :: rest⟩)
    (hright : right.kind = .mark .rightBrace) :
    Yields block ⟨last, ts ++ right :: rest⟩ body ⟨last, rest⟩ :=
  .succ (.bind h (.demand (by decide) hright .pure))

/-- The declarations end where they may. -/
theorem declarations_stop {inBlock : Bool} {c : Cursor} (h : Ends inBlock c.rest) :
    Yields (fun n => declarations n inBlock) c [] c := by
  refine .succ (.bind (.of_forall fun _ => atEnd_apply _) (.check ?_))
  have hstop : (c.atEnd || inBlock && c.check (.mark .rightBrace)) = true := by
    cases inBlock with
    | false =>
        obtain ⟨t, rest, hrest, ht⟩ := h
        simpa [Cursor.atEnd, hrest, Token.is] using ht
    | true => simp [(Cursor.check_eq_true (by decide)).2 h]
  rw [hstop]
  exact .pure

/-- Where a declaration starts, it is read, and the others behind it. -/
theorem declarations_step {inBlock : Bool} {c c₁ c₂ : Cursor} {s : Stmt} {ss : List Stmt}
    (hstarts : StartsWith declarationOpeners c.rest)
    (hfirst : Yields declaration c (some s) c₁)
    (hmore : Yields (fun n => declarations n inBlock) c₁ ss c₂) :
    Yields (fun n => declarations n inBlock) c (s :: ss) c₂ := by
  refine .succ (.bind (.of_forall fun _ => atEnd_apply _) (.check ?_))
  -- The first token is neither the end nor a closing brace, so the loop does not stop.
  have hend : c.atEnd = false := by
    obtain ⟨t, rest, hrest, ht⟩ := hstarts
    have hne : t.kind ≠ .eof := fun heof => absurd (heof ▸ ht) (by decide)
    simpa [Cursor.atEnd, hrest, Token.is] using hne
  have hbrace : c.check (.mark .rightBrace) = false :=
    (Cursor.check_eq_false (by decide)).2 (hstarts.disjoint (by decide))
  rw [hend, hbrace, Bool.and_false, Bool.or_false]
  exact .bind hfirst (.bind hmore .pure)

mutual

/-- A declaration of the grammar is read as it is spelled, in front of the tokens that its
derivation knows of. -/
theorem Declaration.complete {ts rest : List Token} {s : Stmt} (last : Token) :
    Declaration ts rest s → Yields declaration ⟨last, ts ++ rest⟩ (some s) ⟨last, rest⟩
  | .function hword hname hopening hcommas hnames hsize hclosing hleft hbody hright => by
    simp only [List.cons_append, List.append_assoc, List.nil_append]
    refine .succ (.recover (.take (by decide) (by simp [hword]) ?_))
    simp only [Token.is, hword]
    refine .succ (.demand (by decide) hname (.demand (by decide) hopening ?_))
    refine parameters_complete hcommas hnames hsize hclosing ?_
    -- The brace behind the body ends its declarations.
    refine .demand (by decide) hclosing (.demand (by decide) hleft (.bind ?_ .pure))
    exact block_complete (hbody.complete last true (by simp [Ends, hright])) hright
  | .binding hword hbinding => by
    refine .succ (.recover (.take (by decide) (by simp [hword]) ?_))
    simp only [Token.is, hword]
    exact hbinding.complete
  | .statement hs =>
    .succ (.recover (.skip ((hs.starts.append _).disjoint (by decide)) (hs.complete last)))

/-- A statement of the grammar is read as it is spelled. Its first token leads the parser to the
rule that was used. -/
theorem Statement.complete {ts rest : List Token} {s : Stmt} (last : Token) :
    Statement ts rest s → Yields statement ⟨last, ts ++ rest⟩ s ⟨last, rest⟩
  | .expression he hsemicolon => by
    rw [List.append_assoc, List.singleton_append]
    exact .succ (.skip ((he.starts.append _).disjoint (by decide))
      (expressionStatement_complete he hsemicolon))
  | .block hleft hbody hright => by
    rw [List.cons_append, List.append_assoc, List.singleton_append]
    refine opened_complete (by rw [hleft]; decide) ?_
    simp only [opened, hleft]
    exact .map (block_complete (hbody.complete last true (by simp [Ends, hright])) hright)
  | .ifThen hword hopening hc hclosing hyes hnone => by
    simp only [List.cons_append, List.append_assoc]
    refine opened_complete (by rw [hword]; decide) ?_
    simp only [opened, hword]
    refine .succ (condition_complete hopening hc hclosing ?_)
    -- No `else` comes first in what follows, as the rule says.
    exact .bind (hyes.complete last) (.skip hnone .pure)
  | .ifElse hword hopening hc hclosing hyes hotherwise hno => by
    simp only [List.cons_append, List.append_assoc]
    refine opened_complete (by rw [hword]; decide) ?_
    simp only [opened, hword]
    refine .succ (condition_complete hopening hc hclosing (.bind (hyes.complete last) ?_))
    exact .take (by decide) (by simp [hotherwise]) (.bind (hno.complete last) .pure)
  | .loop hword hopening hc hclosing hbody => by
    simp only [List.cons_append, List.append_assoc]
    refine opened_complete (by rw [hword]; decide) ?_
    simp only [opened, hword]
    exact .succ (condition_complete hopening hc hclosing (.bind (hbody.complete last) .pure))
  | .forLoop hword hopening hinit hc hsemicolon hi hclosing hbody => by
    simp only [List.cons_append, List.append_assoc]
    refine opened_complete (by rw [hword]; decide) ?_
    simp only [opened, hword, forTree_eq_ofFor]
    refine .succ (.demand (by decide) hopening (.bind hinit.complete ?_))
    refine .bind (hc.complete (by decide) hsemicolon) (.demand (by decide) hsemicolon ?_)
    refine .bind (hi.complete (by decide) hclosing) (.demand (by decide) hclosing ?_)
    exact .bind (hbody.complete last) .pure
  | .giveBack hword hresult hsemicolon => by
    rw [List.cons_append, List.append_assoc, List.singleton_append]
    refine opened_complete (by rw [hword]; decide) ?_
    simp only [opened, hword]
    refine .of_eq (fun n => returnStatement_eq n _ _) ?_
    exact .bind (hresult.complete (by decide) hsemicolon) (.demand (by decide) hsemicolon .pure)

/-- Declarations of the grammar are read one after the other, up to where they may end. -/
theorem Declarations.complete {ts rest : List Token} {ss : List Stmt} (last : Token)
    (inBlock : Bool) (hends : Ends inBlock rest) : Declarations ts rest ss →
    Yields (fun n => declarations n inBlock) ⟨last, ts ++ rest⟩ ss ⟨last, rest⟩
  | .nil => declarations_stop hends
  | .cons hfirst hmore => by
    rw [List.append_assoc]
    exact declarations_step (hfirst.starts.append _) (hfirst.complete last)
      (hmore.complete last inBlock hends)

end

end Grammar

end Scriptlet
