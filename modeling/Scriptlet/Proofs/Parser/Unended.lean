import Mathlib.Data.List.Forall2
import Scriptlet.Proofs.Parser.Completeness
import Scriptlet.Proofs.Parser.Supply

/-!
# `Scriptlet.Proofs.Parser.Unended`: a list without an end token

Behind a list without an end token a parser sees the last token again. It goes past no token
there, but it could take the one it sees for an operand. This never happens: where an operand is
looked for at the end of the list, the token before it was an operator, a comma, a parenthesis, a
semicolon or a word, and this token is the last one.

* `Cursor.Unended`: the same place in two lists of which one just ends, while behind the other one
  a token is seen that no operand starts with.
* `Cursor.Ready`: an operand may be looked for here. This is the invariant. It holds behind every
  token that is no operand, unless that is an opening parenthesis and the last one.
* `Parser.EndBlind`: at such places a parser does the same, and blames what it finds at the end on
  the token that it sees there. There is one lemma for each parser.
* `missing_end_harmless`: what this comes to for whole lists.
-/

set_option autoImplicit false

namespace Scriptlet

open Grammar

/-! ### Errors at the end -/

/-- The errors are the same, or the one is blamed on `last` and the other one on `seen`. -/
def StaticError.Blamed (last seen : Token) (e e' : StaticError) : Prop :=
  (e = e' ∧ e'.location ≠ .atEnd) ∨
    ∃ defect, e = .ofToken last defect ∧ e' = .ofToken seen defect

/-- The error, blamed on a token if it was found at the end. -/
def StaticError.blameEnd (t : Token) (e : StaticError) : StaticError :=
  if e.location = .atEnd then .ofToken t e.defect else e

/-- An error at a token that is no end is not located at the end. -/
theorem StaticError.location_ofToken {t : Token} (h : t.kind ≠ .eof) (defect : Defect) :
    (StaticError.ofToken t defect).location ≠ .atEnd := by
  simp [ofToken, Token.is, h]

namespace StaticError.Blamed

variable {last seen : Token} {e e' : StaticError}

/-- Whoever is blamed, the defect is the same. -/
theorem defect_eq (h : Blamed last seen e e') : e.defect = e'.defect := by
  obtain ⟨rfl, -⟩ | ⟨defect, rfl, rfl⟩ := h
  · rfl
  · rfl

/-- If an end token is blamed on one side, the other side is told from it: errors at the end are
moved to `last`. -/
theorem eq_blameEnd (hseen : seen.kind = .eof) (h : Blamed last seen e e') :
    e = e'.blameEnd last := by
  obtain ⟨rfl, hlocation⟩ | ⟨defect, rfl, rfl⟩ := h
  · simp [blameEnd, hlocation]
  · simp [blameEnd, ofToken, Token.is, hseen]

end StaticError.Blamed

/-! ### Cursors -/

namespace Cursor

/-- The same place in two lists with no end token among the tokens they share. The list of `c`
ends with its last token, which is no opening parenthesis. Behind the list of `c'` the token `seen`
stands in for one that is missing, or it is an end token at the end of that list. -/
structure Unended (last seen : Token) (c c' : Cursor) : Prop where
  paren : last.kind ≠ .mark .leftParen
  operand : seen.kind ∉ Rung.operandOpeners
  standsIn : c.last = last
  inner : ∀ t ∈ c.rest, t.kind ≠ .eof
  final : ∀ t ∈ c.rest.getLast?, t = last
  rest : (c'.rest = c.rest ∧ c'.last = seen) ∨ (c'.rest = c.rest ++ [seen] ∧ seen.kind = .eof)

/-- An operand may be looked for: if nothing is left, the token seen again is none. -/
def Ready (c : Cursor) : Prop :=
  c.rest = [] → c.last.kind ∉ Rung.operandOpeners

/-- Nothing is asked of the place. -/
def Anywhere (_ : Cursor) : Prop := True

variable {last seen : Token} {c c' : Cursor}

/-- Either both lists are at their end and different tokens are seen there, or the same token is
ahead and the lists go on in the same way. -/
theorem Unended.cases (h : c.Unended last seen c') :
    (c.rest = [] ∧ c.peek = last ∧ c'.peek = seen ∧ c.atEnd = true ∧ c'.atEnd = true) ∨
    ∃ t r r', c.rest = t :: r ∧ c'.rest = t :: r' ∧ t.kind ≠ .eof ∧ (r = [] → t = last) ∧
      Unended last seen ⟨c.last, r⟩ ⟨c'.last, r'⟩ := by
  obtain ⟨l, rest⟩ := c
  obtain ⟨l', rest'⟩ := c'
  obtain ⟨hparen, hoperand, rfl, hinner, hfinal, hrest⟩ := h
  cases rest with
  | nil =>
      -- The tokens behind the first one are no end tokens either, and end with the same one.
      left
      obtain ⟨rfl, rfl⟩ | ⟨rfl, hseen⟩ := hrest
      · exact ⟨rfl, rfl, rfl, rfl, rfl⟩
      · exact ⟨rfl, rfl, rfl, rfl, by simp [atEnd, Token.is, hseen]⟩
  | cons t r =>
      right
      have hinner' : ∀ u ∈ r, u.kind ≠ .eof := fun u hu => hinner u (List.mem_cons_of_mem t hu)
      have hfinal' : ∀ u ∈ r.getLast?, u = l := by
        intro u hu
        refine hfinal u ?_
        rw [List.getLast?_cons, hu]
        rfl
      have hnil : r = [] → t = l := by
        rintro rfl
        exact hfinal t rfl
      obtain ⟨rfl, rfl⟩ | ⟨rfl, hseen⟩ := hrest
      · exact ⟨t, r, r, rfl, rfl, hinner t List.mem_cons_self, hnil,
          ⟨hparen, hoperand, rfl, hinner', hfinal', .inl ⟨rfl, rfl⟩⟩⟩
      · exact ⟨t, r, r ++ [seen], rfl, rfl, hinner t List.mem_cons_self, hnil,
          ⟨hparen, hoperand, rfl, hinner', hfinal', .inr ⟨rfl, hseen⟩⟩⟩

/-- Both lists come to their end at the same place. -/
theorem Unended.atEnd_eq (h : c.Unended last seen c') : c.atEnd = c'.atEnd := by
  obtain ⟨-, -, -, hend, hend'⟩ | ⟨t, r, r', hrest, hrest', -, -, -⟩ := h.cases
  · rw [hend, hend']
  · simp [atEnd, hrest, hrest']

/-- At the end nothing can be read on either side, and elsewhere the same token is ahead. -/
theorem Unended.check_eq (h : c.Unended last seen c') (kind : Kind) :
    c.check kind = c'.check kind := by
  obtain ⟨-, -, -, hend, hend'⟩ | ⟨t, r, r', hrest, hrest', -, -, -⟩ := h.cases
  · simp [check, hend, hend']
  · simp [check, atEnd, peek, hrest, hrest']

/-- An error here is the same on both sides, or found at the end. -/
theorem Unended.blamed (h : c.Unended last seen c') (defect : Defect) :
    StaticError.Blamed last seen (.ofToken c.peek defect) (.ofToken c'.peek defect) := by
  obtain ⟨-, hpeek, hpeek', -, -⟩ | ⟨t, r, r', hrest, hrest', ht, -, -⟩ := h.cases
  · exact .inr ⟨defect, by rw [hpeek], by rw [hpeek']⟩
  · have hpeek : c.peek = t := by simp [peek, hrest]
    have hpeek' : c'.peek = t := by simp [peek, hrest']
    rw [hpeek, hpeek']
    exact .inl ⟨rfl, StaticError.location_ofToken ht defect⟩

/-- Going past a token leaves both lists at the same place. At the end no token is passed. -/
theorem Unended.advance (h : c.Unended last seen c') : c.advance.Unended last seen c'.advance := by
  obtain ⟨-, -, -, hend, hend'⟩ | ⟨t, r, r', hrest, hrest', ht, -, hnext⟩ := h.cases
  · simpa [Cursor.advance, hend, hend'] using h
  · obtain ⟨l, rest⟩ := c
    obtain ⟨l', rest'⟩ := c'
    cases hrest
    cases hrest'
    rw [advance_cons ht, advance_cons ht]
    exact hnext

/-- Skipping stops at the same token, or at the end on both sides. -/
theorem Unended.skip {l l' : Token} : ∀ {r r' : List Token} (previous : Token),
    Unended last seen ⟨l, r⟩ ⟨l', r'⟩ →
      Unended last seen ⟨l, skipStatement previous r⟩ ⟨l', skipStatement previous r'⟩ := by
  intro r
  -- Along the shorter list.
  induction r with
  | nil =>
      intro r' previous h
      obtain ⟨hrest, -⟩ | ⟨hrest, hseen⟩ := h.rest
      · cases hrest
        exact h
      · cases hrest
        simpa [skipStatement, Token.is, hseen] using h
  | cons t r ih =>
      intro r' previous h
      obtain ⟨hnil, -⟩ | ⟨u, s, s', hrest, hrest', -, -, hnext⟩ := h.cases
      · cases hnil
      · cases hrest
        cases hrest'
        unfold skipStatement
        split
        · exact h
        · exact ih t hnext

/-- Behind an error both sides go on at the same place. -/
theorem Unended.resume (h : c.Unended last seen c') : c.resume.Unended last seen c'.resume := by
  obtain ⟨l, rest⟩ := c
  obtain ⟨l', rest'⟩ := c'
  obtain ⟨hnil, -, -, -, hend⟩ | ⟨t, r, r', hrest, hrest', ht, -, hnext⟩ := h.cases
  · cases hnil
    cases rest' with
    | nil => exact h
    | cons u rest' =>
        have hu : u.is .eof = true := hend
        simpa [Cursor.resume, hu] using h
  · cases hrest
    cases hrest'
    simp only [Cursor.resume, Token.is, ht, decide_false]
    exact hnext.skip t

/-- A token that can be read is the same on both sides. -/
theorem Unended.peek_eq (h : c.Unended last seen c') {kind : Kind} (hcheck : c.check kind = true) :
    c.peek = c'.peek ∧ c.peek.kind = kind ∧ kind ≠ .eof := by
  obtain ⟨t, r, hrest, rfl, hne⟩ := of_check hcheck
  -- At the end nothing can be read at all.
  obtain ⟨hnil, -⟩ | ⟨u, s, s', hcons, hcons', -, -, -⟩ := h.cases
  · cases hnil.symm.trans hrest
  · cases hcons.symm.trans hrest
    simp [peek, hrest, hcons', hne]

/-- Behind a token that is no operand, an operand may be looked for. If nothing is left then it was
the last token, so that it was no opening parenthesis either. -/
theorem Unended.ready_advance (h : c.Unended last seen c') {kind : Kind}
    (hcheck : c.check kind = true)
    (hkind : kind ∈ Rung.operandOpeners → kind = .mark .leftParen) : c.advance.Ready := by
  obtain ⟨t, r, hrest, rfl, hne⟩ := of_check hcheck
  obtain ⟨hnil, -⟩ | ⟨u, s, s', hcons, -, -, hfinal, -⟩ := h.cases
  · cases hnil.symm.trans hrest
  · cases hcons.symm.trans hrest
    obtain ⟨l, rest⟩ := c
    cases hrest
    intro hnil hopens
    -- Nothing is left behind the token, so it is the last one, and that one is seen again.
    rw [advance_cons hne] at hnil hopens
    have ht : t = last := hfinal hnil
    have hl : l = last := h.standsIn
    rw [hl, ← ht] at hopens
    exact h.paren (ht ▸ hkind hopens)

/-- Where something is left, an operand may be looked for. -/
theorem ready_of_not_atEnd (h : c.atEnd = false) : c.Ready := by
  intro hnil
  simp [atEnd, hnil] at h

end Cursor

/-! ### Replies and parsers -/

/-- Replies with the same value, with errors that differ in whom they blame for the end, and with
cursors at the same place. The place behind a value is as `Q` says. -/
inductive Reply.Unended {α : Type} (last seen : Token) (Q : Cursor → Prop) :
    Reply α → Reply α → Prop where
  | done {v : α} {es es' : List StaticError} {c c' : Cursor} :
      List.Forall₂ (StaticError.Blamed last seen) es es' → c.Unended last seen c' → Q c →
      Reply.Unended last seen Q (.done v es c) (.done v es' c')
  | fault {e e' : StaticError} {es es' : List StaticError} {c c' : Cursor} :
      StaticError.Blamed last seen e e' →
      List.Forall₂ (StaticError.Blamed last seen) es es' → c.Unended last seen c' →
      Reply.Unended last seen Q (.fault e es c) (.fault e' es' c')
  | starved : Reply.Unended last seen Q .starved .starved

namespace Parser

open Cursor (Ready Anywhere)

variable {α β : Type}

/-- Where `P` holds, the parser does the same at the end of a list as where an end token or
something else that is no operand is seen behind it. `Q` holds where it has found a value. -/
structure EndBlind (P Q : Cursor → Prop) (p : Parser α) : Prop where
  reply {last seen : Token} {c c' : Cursor} : c.Unended last seen c' → P c →
    (p c).Unended last seen Q (p c')

/-- None of the kinds is that of a constant or a name. -/
abbrev NoOperand (kinds : List Kind) : Prop :=
  ∀ kind ∈ kinds, kind ∈ Rung.operandOpeners → kind = .mark .leftParen

namespace EndBlind

variable {P Q R : Cursor → Prop}

/-- A parser without steps gives the same on both sides, which is nothing. -/
theorem starve : EndBlind P Q (starve : Parser α) := ⟨fun _ _ => .starved⟩

/-- Giving a value asks nothing of the place and leaves it as it is. -/
theorem pure (v : α) : EndBlind P P (pure v) := ⟨fun h hP => .done .nil h hP⟩

/-- Less is asked than is known. -/
theorem of_anywhere {p : Parser α} (hp : EndBlind Anywhere Q p) : EndBlind P Q p :=
  ⟨fun h _ => hp.reply h trivial⟩

/-- What is known of the place is forgotten. -/
theorem forget {p : Parser α} (hp : EndBlind P Q p) :
    EndBlind P Anywhere p := by
  refine ⟨fun {last seen c c'} h hP => ?_⟩
  have hreply := hp.reply h hP
  generalize p c = r, p c' = r' at hreply ⊢
  cases hreply with
  | done hes hc _ => exact .done hes hc trivial
  | fault he hes hc => exact .fault he hes hc
  | starved => exact .starved

/-- The rule for two parsers in a row. -/
theorem bind {p : Parser α} {f : α → Parser β} (hp : EndBlind P Q p)
    (hf : ∀ v, EndBlind Q R (f v)) : EndBlind P R (p >>= f) := by
  refine ⟨fun {last seen c c'} h hP => ?_⟩
  show (Parser.bind p f c).Unended last seen R (Parser.bind p f c')
  unfold Parser.bind
  -- What is known behind the first parser is what the second one asks for.
  have hreply := hp.reply h hP
  generalize p c = r, p c' = r' at hreply
  cases hreply with
  | @done v es es' c₁ c₁' hes hc hQ =>
      have hnext := (hf v).reply hc hQ
      show ((f v c₁).after es).Unended last seen R ((f v c₁').after es')
      generalize f v c₁ = s, f v c₁' = s' at hnext
      cases hnext with
      | done hes' hc' hR => exact .done (List.rel_append hes hes') hc' hR
      | fault he hes' hc' => exact .fault he (List.rel_append hes hes') hc'
      | starved => exact .starved
  | fault he hes hc => exact .fault he hes hc
  | starved => exact .starved

/-- Changing the value of a reply changes neither its errors nor its place. -/
theorem map {p : Parser α} (g : α → β) (hp : EndBlind P Q p) : EndBlind P Q (g <$> p) :=
  hp.bind fun v => .pure (g v)

/-- Behind a token that was passed nothing is known of the place: it may have been an operand. -/
theorem advance : EndBlind P Anywhere advance := ⟨fun h _ => .done .nil h.advance trivial⟩

/-- An error about the token in sight may be blamed on different tokens. -/
theorem fail (defect : Defect) : EndBlind P Q (fail defect : Parser α) :=
  ⟨fun h _ => .fault (h.blamed defect) .nil h⟩

/-- A token of the list is blamed as it is. -/
theorem report {t : Token} (ht : t.kind ≠ .eof) (defect : Defect) :
    EndBlind P P (report (.ofToken t defect)) :=
  ⟨fun h hP => .done (.cons (.inl ⟨rfl, StaticError.location_ofToken ht defect⟩) .nil) h hP⟩

/-- The limit check blames the token in sight, and reads nothing. -/
theorem checkLimit (count : Nat) (defect : Defect) : EndBlind P P (checkLimit count defect) := by
  refine ⟨fun {last seen c c'} h hP => ?_⟩
  rw [checkLimit_apply, checkLimit_apply]
  split
  · exact .done (.cons (h.blamed defect) .nil) h hP
  · exact .done .nil h hP

/-- What is found by looking for a kind is the same on both sides. -/
theorem check {kind : Kind} {f : Bool → Parser β} (hf : ∀ found, EndBlind P R (f found)) :
    EndBlind P R (check kind >>= f) := by
  refine ⟨fun {last seen c c'} h hP => ?_⟩
  rw [bind_of_clean (check_apply kind c), bind_of_clean (check_apply kind c'), h.check_eq kind]
  exact (hf _).reply h hP

/-- Where the end has not come, an operand may be looked for. -/
theorem atEnd {f : Bool → Parser β} (hend : EndBlind P R (f true))
    (hgo : EndBlind Ready R (f false)) : EndBlind P R (atEnd >>= f) := by
  refine ⟨fun {last seen c c'} h hP => ?_⟩
  rw [bind_of_clean (atEnd_apply c), bind_of_clean (atEnd_apply c'), ← h.atEnd_eq]
  cases hc : c.atEnd with
  | true => exact hend.reply h hP
  | false => exact hgo.reply h (Cursor.ready_of_not_atEnd hc)

/-- The rule for taking a token if there is one. Behind it an operand may be looked for. -/
theorem take? {kinds : List Kind} {f : Option Token → Parser β} (hkinds : NoOperand kinds)
    (hsome : ∀ t, t.kind ∈ kinds → t.kind ≠ .eof → EndBlind Ready R (f (some t)))
    (hnone : EndBlind P R (f none)) : EndBlind P R (take? kinds >>= f) := by
  refine ⟨fun {last seen c c'} h hP => ?_⟩
  have hchecks : kinds.any c'.check = kinds.any c.check := by
    rw [show c'.check = c.check from funext fun kind => (h.check_eq kind).symm]
  -- A token is taken on both sides or on neither, and it is the same token.
  by_cases hany : kinds.any c.check = true
  · obtain ⟨kind, hkind, hcheck⟩ := List.any_eq_true.1 hany
    obtain ⟨hpeek, rfl, hne⟩ := h.peek_eq hcheck
    have htaken : Parser.take? kinds c = .done (some c.peek) [] c.advance := by
      rw [Parser.take?, if_pos hany]
    have htaken' : Parser.take? kinds c' = .done (some c.peek) [] c'.advance := by
      rw [Parser.take?, hchecks, if_pos hany, hpeek]
    rw [bind_of_clean htaken, bind_of_clean htaken']
    exact (hsome c.peek hkind hne).reply h.advance (h.ready_advance hcheck (hkinds _ hkind))
  · have hleft : Parser.take? kinds c = .done none [] c := by
      rw [Parser.take?, if_neg hany]
    have hleft' : Parser.take? kinds c' = .done none [] c' := by
      rw [Parser.take?, hchecks, if_neg hany]
    rw [bind_of_clean hleft, bind_of_clean hleft']
    exact hnone.reply h hP

/-- The rule for a token that has to be there. -/
theorem demand {kind : Kind} (defect : Defect) (hQ : ∀ {last seen : Token} {c c' : Cursor},
    c.Unended last seen c' → c.check kind = true → Q c.advance) :
    EndBlind P Q (demand kind defect) := by
  refine ⟨fun {last seen c c'} h hP => ?_⟩
  unfold Parser.demand
  rw [← h.check_eq kind]
  cases hcheck : c.check kind with
  | true =>
      rw [← (h.peek_eq hcheck).1]
      exact .done .nil h.advance (hQ h hcheck)
  | false => exact .fault (h.blamed defect) .nil h

/-- Behind a mark that has to be there an operand may be looked for. -/
theorem expect {kind : Kind} (hkind : NoOperand [kind]) (place : String) :
    EndBlind P Ready (expect kind place) :=
  demand _ fun h hcheck => h.ready_advance hcheck (hkind kind (by simp))

/-- Behind a name nothing is known of the place, since a name is an operand. -/
theorem expectName (thing : String) : EndBlind P Anywhere (expectName thing) :=
  demand _ fun _ _ => trivial

/-- The rule for a parser whose error is reported. -/
theorem recover {p : Parser α} (hp : EndBlind P Anywhere p) : EndBlind P Anywhere (recover p) := by
  refine ⟨fun {last seen c c'} h hP => ?_⟩
  unfold Parser.recover
  have hreply := hp.reply h hP
  generalize p c = r, p c' = r' at hreply
  cases hreply with
  | done hes hc _ => exact .done hes hc trivial
  | fault he hes hc => exact .done (List.rel_append hes (.cons he .nil)) hc.resume trivial
  | starved => exact .starved

/-- The rule for a look at the token where an operand may start. What is seen at the end starts
none. -/
theorem operand {f : Token → Parser β} (hf : ∀ t, EndBlind Anywhere Anywhere (f t))
    (hend : ∀ c : Cursor, c.peek.kind ∉ Rung.operandOpeners →
      (peek >>= f) c = .fault (.ofToken c.peek .expectedExpression) [] c) :
    EndBlind Ready Anywhere (peek >>= f) := by
  refine ⟨fun {last seen c c'} h hready => ?_⟩
  -- At the end neither of the tokens in sight starts an operand, and both are blamed.
  obtain ⟨hnil, hpeek, hpeek', -, -⟩ | ⟨t, r, r', hrest, hrest', -, -, -⟩ := h.cases
  · have hlast : c.peek.kind ∉ Rung.operandOpeners := by
      rw [hpeek, ← h.standsIn]
      exact hready hnil
    have hseen : c'.peek.kind ∉ Rung.operandOpeners := hpeek' ▸ h.operand
    rw [hend c hlast, hend c' hseen]
    exact .fault (h.blamed _) .nil h
  · have hsame : c.peek = c'.peek := by simp [Cursor.peek, hrest, hrest']
    rw [bind_of_clean (peek_apply c), bind_of_clean (peek_apply c'), hsame]
    exact (hf _).reply h trivial

end EndBlind

/-! ### Expressions -/

/-- No expression is found at a token that no operand starts with. -/
theorem primary_fault (n : Nat) {c : Cursor} (h : c.peek.kind ∉ Rung.operandOpeners) :
    primary (n + 1) c = .fault (.ofToken c.peek .expectedExpression) [] c := by
  obtain ⟨value, hvalue, -⟩ | ⟨hkind, -⟩ | ⟨hkind, -⟩ | ⟨-, -, -, heq⟩ := primary_cases n c
  · unfold Token.constant? at hvalue
    split at hvalue
    case h_6 => cases hvalue
    all_goals
      rename_i hkind
      exact absurd (hkind ▸ h) (by decide)
  · exact absurd (hkind ▸ h) (by decide)
  · exact absurd (hkind ▸ h) (by decide)
  · exact heq

mutual

/-- An expression may be looked for where an operand may. Behind it nothing is known, since it may
end in an operand. -/
theorem expression_endBlind : ∀ n, EndBlind Ready Anywhere (expression n)
  | 0 => .starve
  | n + 1 => by
    unfold expression
    refine .bind (binary_endBlind n binaryLevels (by decide)) fun target => ?_
    refine .take? (by decide) (fun equals _ hne => ?_) (.pure _)
    refine .bind (expression_endBlind n) fun value => ?_
    split
    · exact .pure _
    · exact .bind (.report hne _) fun _ => .pure _

/-- A ladder of levels. Its operators are no operands, so that one may be looked for behind each of
them. -/
theorem binary_endBlind : ∀ n levels, (∀ level ∈ levels, NoOperand level.operators) →
    EndBlind Ready Anywhere (binary n levels)
  | 0, _, _ => .starve
  | n + 1, [], _ => unary_endBlind n
  | n + 1, level :: tighter, h =>
    have htighter := fun l hl => h l (List.mem_cons_of_mem level hl)
    .bind (binary_endBlind n tighter htighter) fun left =>
      binaryRest_endBlind n level tighter left (h level List.mem_cons_self) htighter

/-- The operators behind an operand may come to their end anywhere. -/
theorem binaryRest_endBlind : ∀ n level tighter left, NoOperand level.operators →
    (∀ level ∈ tighter, NoOperand level.operators) →
    EndBlind Anywhere Anywhere (binaryRest n level tighter left)
  | 0, _, _, _, _, _ => .starve
  | n + 1, level, tighter, left, hlevel, htighter => by
    unfold binaryRest
    refine .take? hlevel (fun op _ _ => ?_) (.pure _)
    exact .bind (binary_endBlind n tighter htighter) fun right =>
      binaryRest_endBlind n level tighter _ hlevel htighter

/-- Operators in front, which are no operands either. -/
theorem unary_endBlind : ∀ n, EndBlind Ready Anywhere (unary n)
  | 0 => .starve
  | n + 1 => by
    unfold unary
    refine .take? (by decide) (fun op _ _ => ?_) ?_
    · exact .bind (unary_endBlind n) fun operand => .pure _
    · exact .bind (primary_endBlind n) fun callee => calls_endBlind n callee

/-- Argument lists. An opening parenthesis is no operand when it is taken here, and the last token
is none. -/
theorem calls_endBlind : ∀ n callee, EndBlind Anywhere Anywhere (calls n callee)
  | 0, _ => .starve
  | n + 1, callee => by
    unfold calls
    refine .take? (by decide) (fun opening _ _ => .check fun closes => ?_) (.pure _)
    have hlater : ∀ args, EndBlind Anywhere Anywhere
        (expect (.mark .rightParen) "after arguments" >>= fun paren =>
          calls n (.call callee paren args)) :=
      fun args => .bind (.expect (by decide) _) fun paren => .of_anywhere (calls_endBlind n _)
    cases closes with
    | true => exact .bind (.pure _) fun args => .of_anywhere (hlater args)
    | false => exact .bind (arguments_endBlind n 0) hlater

/-- Arguments, each of which is an expression behind a parenthesis or a comma. -/
theorem arguments_endBlind : ∀ n count, EndBlind Ready Anywhere (arguments n count)
  | 0, _ => .starve
  | n + 1, count => by
    unfold arguments
    refine .bind (.checkLimit _ _) fun _ => .bind (expression_endBlind n) fun arg => ?_
    refine .take? (by decide) (fun comma _ _ => ?_) (.pure _)
    exact .bind (arguments_endBlind n (count + 1)) fun more => .pure _

/-- This is where a token at the end could be taken for an operand. It is not, as long as an operand
may be looked for. -/
theorem primary_endBlind : ∀ n, EndBlind Ready Anywhere (primary n)
  | 0 => .starve
  | n + 1 => by
    unfold primary
    refine .operand (fun token => ?_) fun c => primary_fault n
    split
    -- The parenthesis that opens the operand is a token of the list.
    case h_7 =>
      refine .take? (by decide) (fun opening _ _ => ?_) (.fail _)
      exact .bind (expression_endBlind n) fun inner =>
        .bind (.expect (by decide) _) fun _ => .of_anywhere (.pure _)
    case h_8 => exact .fail _
    all_goals exact .bind .advance fun _ => .pure _

end

/-! ### Declarations and statements -/

/-- Parameters are names, which are no operands at this place. -/
theorem parameters_endBlind : ∀ n count, EndBlind Anywhere Anywhere (parameters n count)
  | 0, _ => .starve
  | n + 1, count => by
    unfold parameters
    refine .bind (.checkLimit _ _) fun _ => .bind (.expectName _) fun param => ?_
    refine .take? (by decide) (fun comma _ _ => ?_) (.pure _)
    exact .of_anywhere (.bind (parameters_endBlind n (count + 1)) fun more => .pure _)

/-- The mark at the end of a statement. -/
theorem closing_endBlind {P : Cursor → Prop} {kind : Kind} (hkind : NoOperand [kind])
    (place : String) (v : α) : EndBlind P Ready (expect kind place >>= fun _ => pure v) :=
  .bind (.expect hkind place) fun _ => .pure v

/-- A variable declaration ends in a semicolon, behind which an operand may be looked for. -/
theorem variableDeclaration_endBlind (n : Nat) :
    EndBlind Anywhere Ready (variableDeclaration n) := by
  unfold variableDeclaration
  refine .bind (.expectName _) fun name => .take? (by decide) (fun equals _ _ => ?_) ?_
  · exact .bind (.map _ (expression_endBlind n)) fun init => closing_endBlind (by decide) _ _
  · exact .bind (.pure _) fun init => closing_endBlind (by decide) _ _

/-- An expression with its semicolon. -/
theorem expressionStatement_endBlind (n : Nat) :
    EndBlind Ready Ready (expressionStatement n) :=
  .bind (expression_endBlind n) fun _ => closing_endBlind (by decide) _ _

/-- A clause that may be missing. -/
theorem expressionBefore_endBlind (n : Nat) (kind : Kind) :
    EndBlind Ready Anywhere (expressionBefore n kind) := by
  refine .check fun stops => ?_
  cases stops with
  | true => exact (EndBlind.pure _).forget
  | false => exact .map _ (expression_endBlind n)

/-- A `return`, with a result or without one. -/
theorem returnStatement_endBlind (n : Nat) (word : Token) :
    EndBlind Ready Ready (returnStatement n word) := by
  have heq : returnStatement n word = _ := funext (returnStatement_eq n word)
  rw [heq]
  exact .bind (expressionBefore_endBlind n _) fun result => closing_endBlind (by decide) _ _

/-- The first clause of a `for` ends in a semicolon, whatever it is. -/
theorem forInitializer_endBlind (n : Nat) : EndBlind Ready Ready (forInitializer n) := by
  unfold forInitializer
  refine .take? (by decide) (fun semicolon _ _ => .pure _) ?_
  refine .take? (by decide) (fun word _ _ => ?_) ?_
  · exact .map _ (.of_anywhere (variableDeclaration_endBlind n))
  · exact .map _ (expressionStatement_endBlind n)

mutual

/-- A declaration. Its first word is no operand, and behind a function nothing is known of the
place, which may be a broken one. -/
theorem declaration_endBlind : ∀ n, EndBlind Ready Anywhere (declaration n)
  | 0 => .starve
  | n + 1 => by
    unfold declaration
    refine .recover (.take? (by decide) (fun word _ _ => ?_) (statement_endBlind n))
    dsimp only
    split
    · exact .of_anywhere (functionDeclaration_endBlind n)
    · exact .of_anywhere (variableDeclaration_endBlind n).forget

/-- Declarations go on only where something is left, and there an operand may be looked for. -/
theorem declarations_endBlind : ∀ n inBlock, EndBlind Anywhere Anywhere (declarations n inBlock)
  | 0, _ => .starve
  | n + 1, inBlock => by
    unfold declarations
    refine .atEnd (.check fun closes => .pure _) (.check fun closes => ?_)
    split
    · exact .of_anywhere (.pure _)
    · exact .bind (declaration_endBlind n) fun first =>
        .bind (declarations_endBlind n inBlock) fun more => .pure _

/-- A block: its declarations may stop anywhere. -/
theorem block_endBlind : ∀ n, EndBlind Anywhere Anywhere (block n)
  | 0 => .starve
  | n + 1 => .forget (.bind (declarations_endBlind n true) fun _ =>
      closing_endBlind (by decide) _ _)

/-- A function, whose head holds no expression. -/
theorem functionDeclaration_endBlind : ∀ n, EndBlind Anywhere Anywhere (functionDeclaration n)
  | 0 => .starve
  | n + 1 => by
    unfold functionDeclaration
    refine .bind (.expectName _) fun name => .bind (.expect (by decide) _) fun _ =>
      .check fun closes => ?_
    -- What follows the parameters, whether there are any or not.
    have hlater : ∀ params, EndBlind Anywhere Anywhere
        (expect (.mark .rightParen) "after parameters" >>= fun _ =>
          expect (.mark .leftBrace) "before function body" >>= fun _ =>
            block n >>= fun body => pure (Stmt.function name params body)) :=
      fun params => .bind (.expect (by decide) _) fun _ => .bind (.expect (by decide) _) fun _ =>
        .of_anywhere (.bind (block_endBlind n) fun body => .pure _)
    cases closes with
    | true => exact .bind (.pure _) fun params => .of_anywhere (hlater params)
    | false => exact .bind (.of_anywhere (parameters_endBlind n 0)) hlater

/-- A statement: behind the word that opens it nothing is asked, since what comes next is a mark or
is looked for with a mark behind it. -/
theorem statement_endBlind : ∀ n, EndBlind Ready Anywhere (statement n)
  | 0 => .starve
  | n + 1 => by
    rw [statement_succ]
    refine .take? (by decide) (fun word hword _ => ?_) (expressionStatement_endBlind n).forget
    show EndBlind Ready Anywhere (opened n word)
    obtain ⟨-, heq⟩ | ⟨-, heq⟩ | ⟨-, heq⟩ | ⟨-, heq⟩ | ⟨-, heq⟩ := opened_cases n hword <;>
      rw [heq]
    · exact .of_anywhere (forStatement_endBlind n)
    · exact .of_anywhere (ifStatement_endBlind n)
    · exact (returnStatement_endBlind n word).forget
    · exact .of_anywhere (whileStatement_endBlind n)
    · exact .of_anywhere (.map _ (block_endBlind n))

/-- A `for` loop. Between its clauses there are semicolons. -/
theorem forStatement_endBlind : ∀ n, EndBlind Anywhere Anywhere (forStatement n)
  | 0 => .starve
  | n + 1 =>
    .bind (.expect (by decide) _) fun _ => .bind (forInitializer_endBlind n) fun _ =>
      .bind (expressionBefore_endBlind n _) fun _ => .bind (.expect (by decide) _) fun _ =>
        .bind (expressionBefore_endBlind n _) fun _ => .bind (.expect (by decide) _) fun _ =>
          .bind (statement_endBlind n) fun _ => .pure _

/-- An `if`. Its parentheses and its `else` are no operands. -/
theorem ifStatement_endBlind : ∀ n, EndBlind Anywhere Anywhere (ifStatement n)
  | 0 => .starve
  | n + 1 => by
    unfold ifStatement
    refine .bind (.expect (by decide) _) fun _ => .bind (expression_endBlind n) fun condition =>
      .bind (.expect (by decide) _) fun _ => .bind (statement_endBlind n) fun yes => ?_
    refine .take? (by decide) (fun word _ _ => ?_) (.pure _)
    exact .bind (statement_endBlind n) fun no => .pure _

/-- A `while` loop. -/
theorem whileStatement_endBlind : ∀ n, EndBlind Anywhere Anywhere (whileStatement n)
  | 0 => .starve
  | n + 1 =>
    .bind (.expect (by decide) _) fun _ => .bind (expression_endBlind n) fun _ =>
      .bind (.expect (by decide) _) fun _ => .bind (statement_endBlind n) fun _ => .pure _

end

end Parser

/-! ### Whole lists -/

section Whole

variable {ts : List Token} {last seen : Token}

/-- What a parse of declarations comes to does not depend on how the list ends. -/
theorem declarations_unended {c c₁ : Cursor} {n : Nat} {p : Program} {es : List StaticError}
    (h : Cursor.Unended last seen ⟨last, ts⟩ c)
    (hdone : Parser.declarations n false ⟨last, ts⟩ = .done p es c₁) :
    ∃ es' c₂, Parser.declarations n false c = .done p es' c₂ ∧
      List.Forall₂ (StaticError.Blamed last seen) es es' := by
  -- All the work is done by the lemma about declarations, at a place of which nothing is asked.
  have hreply := (Parser.declarations_endBlind n false).reply h trivial
  rw [hdone] at hreply
  generalize Parser.declarations n false c = r at hreply ⊢
  cases hreply with
  | done hes _ _ => exact ⟨_, _, rfl, hes⟩

/-- The defects are the same one by one. -/
theorem map_defect_of_blamed {es es' : List StaticError}
    (h : List.Forall₂ (StaticError.Blamed last seen) es es') :
    es'.map (·.defect) = es.map (·.defect) := by
  induction h with
  | nil => rfl
  | cons he _ ih => simp only [List.map_cons, he.defect_eq, ih]

/-- If an end token is blamed on one side, the errors of the other side are told from its errors. -/
theorem eq_map_blameEnd {es es' : List StaticError} (hseen : seen.kind = .eof)
    (h : List.Forall₂ (StaticError.Blamed last seen) es es') :
    es = es'.map (·.blameEnd last) := by
  induction h with
  | nil => rfl
  | cons he _ ih => rw [List.map_cons, ← he.eq_blameEnd hseen, ← ih]

/-- **A list without an end token is parsed as if it had one**, unless it ends with an opening
parenthesis. Let `ts` hold no end token and end with `last`. There are steps enough to parse it,
the statements are those of the list with an end token behind it, and so are the errors one by one,
except that those at the end are blamed on `last`. The last token, which is seen again behind the
list, is never taken for an operand there: if any token were seen in its place that no operand
starts with, the statements would be the same, and the errors of the same kinds. -/
theorem missing_end_harmless {eof : Token} (hlast : ts.getLast? = some last)
    (hts : ∀ t ∈ ts, t.kind ≠ .eof) (hparen : last.kind ≠ .mark .leftParen)
    (heof : eof.kind = .eof) :
    (∀ n, parseSteps ts ≤ n → ∃ c, Parser.declarations n false ⟨last, ts⟩
      = .done (parse ts).program (parse ts).errors c) ∧
    (parse ts).program = (parse (ts ++ [eof])).program ∧
    (parse ts).errors = (parse (ts ++ [eof])).errors.map (·.blameEnd last) ∧
    ∀ other n, other.kind ∉ Rung.operandOpeners → parseSteps ts ≤ n →
      ∃ errors c, Parser.declarations n false ⟨other, ts⟩ = .done (parse ts).program errors c ∧
        errors.map (·.defect) = (parse ts).errors.map (·.defect) := by
  have hfinal : ∀ t ∈ ts.getLast?, t = last := by
    rw [hlast]
    rintro t ⟨⟩
    rfl
  have hsteps : ∀ n, parseSteps ts ≤ n → ∃ c, Parser.declarations n false ⟨last, ts⟩
      = .done (parse ts).program (parse ts).errors c :=
    fun n hn => parse_eq_of_steps hlast hn
  have hended : (parse ts).program = (parse (ts ++ [eof])).program ∧
      (parse ts).errors = (parse (ts ++ [eof])).errors.map (·.blameEnd last) := by
    have hoperand : eof.kind ∉ Rung.operandOpeners := by
      rw [heof]
      decide
    have hcursor : Cursor.Unended last eof ⟨last, ts⟩ ⟨eof, ts ++ [eof]⟩ :=
      ⟨hparen, hoperand, rfl, hts, hfinal, .inr ⟨rfl, heof⟩⟩
    -- The longer list has more steps, which are enough for both.
    have hmore : parseSteps ts ≤ parseSteps (ts ++ [eof]) := by
      simp only [parseSteps, List.length_append]
      omega
    obtain ⟨c, hc⟩ := hsteps _ hmore
    obtain ⟨es', c₂, hdone, hes⟩ := declarations_unended hcursor hc
    have hlast' : (ts ++ [eof]).getLast? = some eof := by simp
    obtain ⟨c', hc'⟩ := parse_eq_of_steps hlast' (Nat.le_refl _)
    obtain ⟨hprogram, herrors, -⟩ := Reply.done.inj (hdone.symm.trans hc')
    exact ⟨hprogram, herrors ▸ eq_map_blameEnd heof hes⟩
  refine ⟨hsteps, hended.1, hended.2, fun other n hother hn => ?_⟩
  obtain ⟨c, hc⟩ := hsteps n hn
  have hcursor : Cursor.Unended last other ⟨last, ts⟩ ⟨other, ts⟩ :=
    ⟨hparen, hother, rfl, hts, hfinal, .inl ⟨rfl, rfl⟩⟩
  obtain ⟨es', c₂, hdone, hes⟩ := declarations_unended hcursor hc
  exact ⟨es', c₂, hdone, map_defect_of_blamed hes⟩

end Whole

/-- A block with a sum in it, broken off behind its second operand. That operand is seen again where
a semicolon is missing and where a brace is missing, and it is blamed for both. -/
theorem missing_end_harmless_operand :
    let word (kind : Kind) (name : String) : Token := ⟨kind, ⟨0, 0, name⟩, none, 1⟩
    let a := word .identifier "a"
    let ts := [word (.mark .leftBrace) "\x7b", word .identifier "b", word (.mark .plus) "+", a]
    let eof := { word .eof "" with line := 2 }
    (parse ts).errors = (parse (ts ++ [eof])).errors.map (·.blameEnd a) ∧
      (parse ts).errors.map (fun e => (e.line, e.location)) = [(1, .at "a"), (1, .at "a")] ∧
      (parse (ts ++ [eof])).errors.map (fun e => (e.line, e.location))
        = [(2, .atEnd), (2, .atEnd)] := by
  intro word a ts eof
  have hts : ∀ t ∈ ts, t.kind ≠ .eof := by decide
  have hparen : a.kind ≠ .mark .leftParen := by decide
  exact ⟨(missing_end_harmless rfl hts hparen rfl).2.2.1, by decide +kernel, by decide +kernel⟩

end Scriptlet
