import Scriptlet.Proofs.Parser.Grammar

/-!
# `Scriptlet.Proofs.Parser.Soundness`: what is read without an error follows the grammar

A parser that replies cleanly, with a value and no error, has read tokens that spell this
value. There is one lemma for each parser, by induction on its supply of steps. The loops
carry what they have read so far: `binaryRest_sound` and `calls_sound` extend a derivation
of the left operand, and so every rung groups to the left.

The last token of the list must be an end token. Behind the list a parser sees that token
again, and it must not take it for an operand.
-/

set_option autoImplicit false

namespace Scriptlet

/-- The tokens `ts` lie between two places of a list, and the end is not among them. -/
structure Cursor.Reads (c : Cursor) (ts : List Token) (c' : Cursor) : Prop where
  rest : c.rest = ts ++ c'.rest
  last : c'.last = c.last
  inner : ∀ t ∈ ts, t.kind ≠ .eof

namespace Cursor

/-- Between a place and itself no tokens lie. -/
theorem Reads.refl (c : Cursor) : c.Reads [] c := ⟨rfl, rfl, nofun⟩

/-- What was read on two ways in a row is what was read on the whole way. -/
theorem Reads.trans {c c₁ c₂ : Cursor} {ts us : List Token} (h : c.Reads ts c₁)
    (h' : c₁.Reads us c₂) : c.Reads (ts ++ us) c₂ where
  rest := by rw [h.rest, h'.rest, List.append_assoc]
  last := h'.last.trans h.last
  inner t ht := (List.mem_append.1 ht).elim (h.inner t) (h'.inner t)

/-- One step past a token that is no end. -/
theorem reads_cons {c c₁ : Cursor} {t : Token} (hrest : c.rest = t :: c₁.rest)
    (hlast : c₁.last = c.last) (hkind : t.kind ≠ .eof) : c.Reads [t] c₁ :=
  ⟨hrest, hlast, by simpa using hkind⟩

/-- The list ends with an end token. -/
def Closed (c : Cursor) : Prop := c.last.kind = .eof

/-- A list that ends with an end token still does so at a later place. -/
theorem Reads.closed {c c' : Cursor} {ts : List Token} (h : c.Reads ts c')
    (hc : c.Closed) : c'.Closed := by
  unfold Closed
  rw [h.last]
  exact hc

/-- Where a token other than the end is seen in a list with an end token, it is the first
of the tokens ahead. -/
theorem reads_advance {c : Cursor} (hc : c.Closed) (h : c.peek.kind ≠ .eof) :
    c.Reads [c.peek] c.advance := by
  obtain ⟨last, rest⟩ := c
  -- Behind the list the parser sees the last token again. It is an end token.
  cases rest with
  | nil => exact absurd hc h
  | cons t rest =>
      rw [advance_cons (show t.kind ≠ .eof from h)]
      exact reads_cons rfl rfl h

end Cursor

namespace Parser

open Grammar

/-- A token that was taken, as a step of reading. -/
theorem take?_reads {kinds : List Kind} {c c' : Cursor} {t : Token}
    (h : take? kinds c = .done (some t) [] c') : t.kind ∈ kinds ∧ c.Reads [t] c' := by
  obtain ⟨t', rest, hrest, ht, hne, heq⟩ | ⟨-, heq⟩ := take?_cases kinds c
  · rw [heq] at h
    cases h
    exact ⟨ht, Cursor.reads_cons hrest rfl hne⟩
  · rw [heq] at h
    cases h

/-- A token that was demanded and found, as a step of reading. -/
theorem demand_reads {kind : Kind} (hkind : kind ≠ .eof) {defect : Defect} {c c' : Cursor}
    {t : Token} (h : demand kind defect c = .done t [] c') :
    t.kind = kind ∧ c.Reads [t] c' := by
  obtain ⟨ht, hrest, hlast⟩ := demand_done hkind h
  exact ⟨ht, Cursor.reads_cons hrest hlast (ht ▸ hkind)⟩

/-! ### Expressions -/

/-- A token that stands for a constant spells it. -/
theorem derives_constant {t : Token} {value : Literal} (h : t.constant? = some value) :
    Derives .primary [t] (.literal value) := by
  unfold Token.constant? at h
  split at h <;> cases h
  case h_1 hkind => exact .falsehood hkind
  case h_2 hkind => exact .truth hkind
  case h_3 hkind => exact .nothing hkind
  case h_4 hkind => exact .constant (.inl hkind)
  case h_5 hkind => exact .constant (.inr hkind)

mutual

/-- An expression that is read cleanly was spelled by an assignment: the loosest rung, with or
without an equality sign. -/
theorem expression_sound : ∀ n {c c' e}, c.Closed → expression n c = .done e [] c' →
    ∃ ts, c.Reads ts c' ∧ Derives .assignment ts e
  | 0, _, _, _, _, h => by cases h
  | n + 1, c, c', e, hc, h => by
    unfold expression at h
    obtain ⟨target, c₁, htarget, h₁⟩ := bind_clean.1 h
    obtain ⟨ts, hts, hderives⟩ := binary_sound n .disjunction (by decide) hc htarget
    obtain ⟨equals, c₂, hequals, h₂⟩ := bind_clean.1 h₁
    cases equals with
    | none =>
        obtain ⟨-, rfl⟩ := take?_none (by decide) hequals
        cases h₂
        -- Nothing is assigned, so the expression is what the ladder of operators read.
        exact ⟨ts, hts, .lift hderives⟩
    | some equals =>
        obtain ⟨hkind, heq⟩ := take?_reads hequals
        obtain ⟨value, c₃, hvalue, h₃⟩ := bind_clean.1 h₂
        obtain ⟨us, hus, hright⟩ :=
          expression_sound n (heq.closed (hts.closed hc)) hvalue
        -- Only a bare variable is assigned to without an error.
        split at h₃
        case h_1 name =>
          cases h₃
          obtain ⟨rfl, hname⟩ := hderives.tokens_of_get
          exact ⟨_, hts.trans (heq.trans hus), .assign hname (by simpa using hkind) hright⟩
        case h_2 =>
          obtain ⟨_, _, hreport, -⟩ := bind_clean.1 h₃
          cases hreport

/-- A rung of binary operators, or the one below them. The ladder that the parser goes down is that
of the rungs of the grammar. -/
theorem binary_sound : ∀ n (r : Rung), r.operators ≠ [] ∨ r = .unary → ∀ {c c' e},
    c.Closed → binary n r.levels c = .done e [] c' → ∃ ts, c.Reads ts c' ∧ Derives r ts e
  | 0, _, _, _, _, _, _, h => by cases h
  | n + 1, r, .inr hr, c, c', e, hc, h => by
    subst hr
    exact unary_sound n hc h
  | n + 1, r, .inl hr, c, c', e, hc, h => by
    rw [Rung.levels_eq_cons hr] at h
    unfold binary at h
    obtain ⟨left, c₁, hleft, h₁⟩ := bind_clean.1 h
    obtain ⟨ls, hls, hderives⟩ := binary_sound n r.tighter (Rung.tighter_binary hr) hc hleft
    obtain ⟨ts, hts, hall⟩ := binaryRest_sound n r hr (hls.closed hc) (.lift hderives) h₁
    exact ⟨ls ++ ts, hls.trans hts, hall⟩

/-- The operators of a rung behind a left operand that was spelled by `ls`. The loop ends with a
tree that is spelled by all that was read. -/
theorem binaryRest_sound : ∀ n (r : Rung), r.operators ≠ [] → ∀ {left c c' e ls},
    c.Closed → Derives r ls left →
    binaryRest n r.level r.tighter.levels left c = .done e [] c' →
    ∃ ts, c.Reads ts c' ∧ Derives r (ls ++ ts) e
  | 0, _, _, _, _, _, _, _, _, _, h => by cases h
  | n + 1, r, hr, left, c, c', e, ls, hc, hleft, h => by
    unfold binaryRest at h
    obtain ⟨op, c₁, hop, h₁⟩ := bind_clean.1 h
    cases op with
    | none =>
        obtain ⟨-, rfl⟩ := take?_none r.eof_notMem_operators hop
        cases h₁
        exact ⟨[], .refl _, by rw [List.append_nil]; exact hleft⟩
    | some op =>
        obtain ⟨hkind, hread⟩ := take?_reads hop
        obtain ⟨right, c₂, hright, h₂⟩ := bind_clean.1 h₁
        obtain ⟨rs, hrs, hderives⟩ :=
          binary_sound n r.tighter (Rung.tighter_binary hr) (hread.closed hc) hright
        -- The left operand of the next round spells all that has been read so far.
        have hjoin := hleft.join hkind hderives
        obtain ⟨ts, hts, hall⟩ :=
          binaryRest_sound n r hr (hrs.closed (hread.closed hc)) hjoin h₂
        refine ⟨[op] ++ (rs ++ ts), hread.trans (hrs.trans hts), ?_⟩
        rw [List.append_assoc] at hall
        exact hall

/-- Operators in front of an operand, each spelled by its token, or an operand with its calls. -/
theorem unary_sound : ∀ n {c c' e}, c.Closed → unary n c = .done e [] c' →
    ∃ ts, c.Reads ts c' ∧ Derives .unary ts e
  | 0, _, _, _, _, h => by cases h
  | n + 1, c, c', e, hc, h => by
    unfold unary at h
    obtain ⟨op, c₁, hop, h₁⟩ := bind_clean.1 h
    cases op with
    | some op =>
        obtain ⟨hkind, hread⟩ := take?_reads hop
        obtain ⟨operand, c₂, hoperand, h₂⟩ := bind_clean.1 h₁
        obtain ⟨ts, hts, hderives⟩ := unary_sound n (hread.closed hc) hoperand
        cases h₂
        exact ⟨_, hread.trans hts, .unary hkind hderives⟩
    | none =>
        obtain ⟨-, rfl⟩ := take?_none (by decide) hop
        -- Without a sign: an operand, and the calls behind it.
        obtain ⟨callee, c₂, hcallee, h₂⟩ := bind_clean.1 h₁
        obtain ⟨fs, hfs, hderives⟩ := primary_sound n hc hcallee
        obtain ⟨ts, hts, hall⟩ := calls_sound n (hfs.closed hc) (.lift hderives) h₂
        exact ⟨_, hfs.trans hts, .lift hall⟩

/-- The calls behind a callee that was spelled by `fs`. Each of them makes a callee of what was read
so far. -/
theorem calls_sound : ∀ n {callee c c' e fs}, c.Closed → Derives .call fs callee →
    calls n callee c = .done e [] c' → ∃ ts, c.Reads ts c' ∧ Derives .call (fs ++ ts) e
  | 0, _, _, _, _, _, _, _, h => by cases h
  | n + 1, callee, c, c', e, fs, hc, hcallee, h => by
    unfold calls at h
    obtain ⟨opening, c₁, hopening, h₁⟩ := bind_clean.1 h
    cases opening with
    | none =>
        obtain ⟨-, rfl⟩ := take?_none (by decide) hopening
        cases h₁
        exact ⟨[], .refl _, by rw [List.append_nil]; exact hcallee⟩
    | some opening =>
        obtain ⟨hkind, hread⟩ := take?_reads hopening
        have hc₁ := hread.closed hc
        -- What follows the arguments, whether there are any or not.
        have hlater : ∀ (args : List (List Token × Expr)) {ts : List Token} {c₂ : Cursor},
            c₁.Reads ts c₂ → CommaList (args.map (·.1)) ts →
            (∀ arg ∈ args, Derives .assignment arg.1 arg.2) → args.length ≤ 255 →
            (expect (.mark .rightParen) "after arguments" >>= fun paren =>
              calls n (.call callee paren (args.map (·.2)))) c₂ = .done e [] c' →
            ∃ ts, c.Reads ts c' ∧ Derives .call (fs ++ ts) e := by
          intro args ts c₂ hts hcommas hargs hsize h₂
          obtain ⟨paren, c₃, hparen, h₃⟩ := bind_clean.1 h₂
          obtain ⟨hclose, hread'⟩ := demand_reads (by decide) hparen
          have hcall : Derives .call (fs ++ opening :: (ts ++ [paren])) _ :=
            .call hcallee (by simpa using hkind) hcommas hargs hsize hclose
          obtain ⟨us, hus, hall⟩ :=
            calls_sound n (hread'.closed (hts.closed hc₁)) hcall h₃
          refine ⟨[opening] ++ (ts ++ ([paren] ++ us)),
            hread.trans (hts.trans (hread'.trans hus)), ?_⟩
          simpa using hall
        obtain ⟨closes, c₂, hcloses, h₂⟩ := bind_clean.1 h₁
        cases hcloses
        cases hcheck : c₁.check (.mark .rightParen) with
        | true =>
            rw [hcheck] at h₂
            obtain ⟨args, c₃, hargs, h₃⟩ := bind_clean.1 h₂
            cases hargs
            exact hlater [] (.refl _) .none (by simp) (by decide) h₃
        | false =>
            rw [hcheck] at h₂
            obtain ⟨args, c₃, hargs, h₃⟩ := bind_clean.1 h₂
            obtain ⟨items, ts, rfl, -, hts, hcommas, hitems, hsize⟩ :=
              arguments_sound n hc₁ hargs
            exact hlater items hts hcommas hitems (by omega) h₃

/-- Arguments are expressions with commas between them, at most 255 of them with those in
front of them. -/
theorem arguments_sound : ∀ n {count c c' args}, c.Closed →
    arguments n count c = .done args [] c' →
    ∃ (items : List (List Token × Expr)) (ts : List Token), args = items.map (·.2) ∧
      items ≠ [] ∧ c.Reads ts c' ∧ CommaList (items.map (·.1)) ts ∧
      (∀ item ∈ items, Derives .assignment item.1 item.2) ∧ count + items.length ≤ 255
  | 0, _, _, _, _, _, h => by cases h
  | n + 1, count, c, c', args, hc, h => by
    unfold arguments at h
    obtain ⟨_, c₀, hlimit, h₀⟩ := bind_clean.1 h
    obtain ⟨hcount, rfl⟩ := checkLimit_clean.1 hlimit
    have hcount : count < 255 := hcount
    obtain ⟨arg, c₁, harg, h₁⟩ := bind_clean.1 h₀
    obtain ⟨ts, hts, hderives⟩ := expression_sound n hc harg
    obtain ⟨comma, c₂, hcomma, h₂⟩ := bind_clean.1 h₁
    cases comma with
    | none =>
        obtain ⟨-, rfl⟩ := take?_none (by decide) hcomma
        cases h₂
        exact ⟨[(ts, arg)], ts, rfl, by simp, hts, .one ts, by simpa using hderives, hcount⟩
    | some comma =>
        obtain ⟨hkind, hread⟩ := take?_reads hcomma
        obtain ⟨more, c₃, hmore, h₃⟩ := bind_clean.1 h₂
        obtain ⟨items, us, rfl, hne, hus, hcommas, hitems, hsize⟩ :=
          arguments_sound n (hread.closed (hts.closed hc)) hmore
        cases h₃
        refine ⟨(ts, arg) :: items, ts ++ comma :: us, rfl, by simp,
          hts.trans (hread.trans hus), ?_, ?_, ?_⟩
        -- Behind a comma there is at least one more argument.
        · cases items with
          | nil => exact absurd rfl hne
          | cons item items => exact .more (by simpa using hkind) hcommas
        · simpa using ⟨hderives, fun a b => hitems (a, b)⟩
        · rw [List.length_cons]
          omega

/-- An operand is a constant, a name, or an expression between parentheses. -/
theorem primary_sound : ∀ n {c c' e}, c.Closed → primary n c = .done e [] c' →
    ∃ ts, c.Reads ts c' ∧ Derives .primary ts e
  | 0, _, _, _, _, h => by cases h
  | n + 1, c, c', e, hc, h => by
    obtain ⟨value, hvalue, heq⟩ | ⟨hkind, heq⟩ | ⟨-, heq⟩ | ⟨-, -, -, heq⟩ := primary_cases n c
    · rw [heq] at h
      cases h
      -- An end token is no constant, so the token was ahead and not behind the list.
      have hne : c.peek.kind ≠ .eof := fun heof => by simp [Token.constant?, heof] at hvalue
      exact ⟨_, Cursor.reads_advance hc hne, derives_constant hvalue⟩
    · rw [heq] at h
      cases h
      exact ⟨_, Cursor.reads_advance hc (by simp [hkind]), .name hkind⟩
    · rw [heq] at h
      obtain ⟨opening, c₁, hopening, h₁⟩ := bind_clean.1 h
      cases opening with
      | none => cases h₁
      | some opening =>
          obtain ⟨hopens, hread⟩ := take?_reads hopening
          obtain ⟨inner, c₂, hinner, h₂⟩ := bind_clean.1 h₁
          obtain ⟨ts, hts, hderives⟩ := expression_sound n (hread.closed hc) hinner
          obtain ⟨closing, c₃, hclosing, h₃⟩ := bind_clean.1 h₂
          obtain ⟨hcloses, hread'⟩ := demand_reads (by decide) hclosing
          cases h₃
          exact ⟨_, hread.trans (hts.trans hread'),
            .group (by simpa using hopens) hderives hcloses⟩
    · rw [heq] at h
      cases h

end

/-! ### Statements -/

/-- Parameters are names with commas between them, at most 255 of them with those in front
of them. -/
theorem parameters_sound : ∀ n {count c c' params},
    parameters n count c = .done params [] c' →
    ∃ ts, params ≠ [] ∧ c.Reads ts c' ∧ CommaList (params.map fun p => [p]) ts ∧
      (∀ p ∈ params, p.kind = .identifier) ∧ count + params.length ≤ 255
  | 0, _, _, _, _, h => by cases h
  | n + 1, count, c, c', params, h => by
    unfold parameters at h
    obtain ⟨_, c₀, hlimit, h₀⟩ := bind_clean.1 h
    obtain ⟨hcount, rfl⟩ := checkLimit_clean.1 hlimit
    have hcount : count < 255 := hcount
    obtain ⟨param, c₁, hparam, h₁⟩ := bind_clean.1 h₀
    obtain ⟨hname, hread⟩ := demand_reads (by decide) hparam
    obtain ⟨comma, c₂, hcomma, h₂⟩ := bind_clean.1 h₁
    cases comma with
    | none =>
        obtain ⟨-, rfl⟩ := take?_none (by decide) hcomma
        cases h₂
        exact ⟨[param], by simp, hread, .one _, by simpa using hname, hcount⟩
    | some comma =>
        obtain ⟨hkind, hread'⟩ := take?_reads hcomma
        obtain ⟨more, c₃, hmore, h₃⟩ := bind_clean.1 h₂
        obtain ⟨ts, hne, hts, hcommas, hnames, hsize⟩ := parameters_sound n hmore
        cases h₃
        refine ⟨[param] ++ comma :: ts, by simp, hread.trans (hread'.trans hts), ?_, ?_, ?_⟩
        -- Behind a comma there is at least one more parameter.
        · cases more with
          | nil => exact absurd rfl hne
          | cons p more => exact .more (by simpa using hkind) hcommas
        · simpa using ⟨hname, hnames⟩
        · rw [List.length_cons]
          omega

/-- A variable declaration behind its word is a binding of the grammar, with a value or without
one. -/
theorem variableDeclaration_sound {n : Nat} {c c' : Cursor} {s : Stmt} (hc : c.Closed)
    (h : variableDeclaration n c = .done s [] c') : ∃ ts, c.Reads ts c' ∧ Binding ts s := by
  unfold variableDeclaration at h
  obtain ⟨name, c₁, hname, h₁⟩ := bind_clean.1 h
  obtain ⟨hkind, hread⟩ := demand_reads (by decide) hname
  obtain ⟨equals, c₂, hequals, h₂⟩ := bind_clean.1 h₁
  -- The equals sign decides whether there is a value.
  cases equals with
  | some equals =>
      obtain ⟨heq, hread'⟩ := take?_reads hequals
      obtain ⟨init, c₃, hinit, h₃⟩ := bind_clean.1 h₂
      obtain ⟨value, hvalue, rfl⟩ := map_clean.1 hinit
      obtain ⟨ts, hts, hderives⟩ :=
        expression_sound n (hread'.closed (hread.closed hc)) hvalue
      obtain ⟨semicolon, c₄, hsemicolon, h₄⟩ := bind_clean.1 h₃
      obtain ⟨hends, hread''⟩ := demand_reads (by decide) hsemicolon
      cases h₄
      exact ⟨_, hread.trans (hread'.trans (hts.trans hread'')),
        .valued hkind (by simpa using heq) hderives hends⟩
  | none =>
      obtain ⟨-, rfl⟩ := take?_none (by decide) hequals
      obtain ⟨init, c₃, hinit, h₃⟩ := bind_clean.1 h₂
      cases hinit
      obtain ⟨semicolon, c₄, hsemicolon, h₄⟩ := bind_clean.1 h₃
      obtain ⟨hends, hread'⟩ := demand_reads (by decide) hsemicolon
      cases h₄
      exact ⟨_, hread.trans hread', .bare hkind hends⟩

/-- An expression with its semicolon. The two are kept apart, since the same tokens may open a
`for`. -/
theorem expressionStatement_sound {n : Nat} {c c' : Cursor} {s : Stmt} (hc : c.Closed)
    (h : expressionStatement n c = .done s [] c') :
    ∃ ts semicolon e, s = .expression e ∧ c.Reads (ts ++ [semicolon]) c' ∧
      Derives .assignment ts e ∧ semicolon.kind = .mark .semicolon := by
  unfold expressionStatement at h
  obtain ⟨value, c₁, hvalue, h₁⟩ := bind_clean.1 h
  obtain ⟨ts, hts, hderives⟩ := expression_sound n hc hvalue
  obtain ⟨semicolon, c₂, hsemicolon, h₂⟩ := bind_clean.1 h₁
  obtain ⟨hends, hread⟩ := demand_reads (by decide) hsemicolon
  cases h₂
  exact ⟨ts, semicolon, value, rfl, hts.trans hread, hderives, hends⟩

/-- A clause that may be missing is a clause of the grammar. It is missing where the token comes
first that would end it. -/
theorem expressionBefore_sound {n : Nat} {kind : Kind} {c c' : Cursor} {e : Option Expr}
    (hc : c.Closed) (h : expressionBefore n kind c = .done e [] c') :
    ∃ ts, c.Reads ts c' ∧ Clause ts e := by
  unfold expressionBefore at h
  obtain ⟨stops, c₁, hstops, h₁⟩ := bind_clean.1 h
  cases hstops
  cases hcheck : c.check kind with
  | true =>
      rw [hcheck] at h₁
      cases h₁
      exact ⟨[], .refl _, .absent⟩
  | false =>
      rw [hcheck] at h₁
      obtain ⟨value, hvalue, rfl⟩ := map_clean.1 h₁
      obtain ⟨ts, hts, hderives⟩ := expression_sound n hc hvalue
      exact ⟨ts, hts, .present hderives⟩

/-- The first clause of a `for`, with its semicolon. -/
theorem forInitializer_sound {n : Nat} {c c' : Cursor} {init : Option Stmt} (hc : c.Closed)
    (h : forInitializer n c = .done init [] c') :
    ∃ ts, c.Reads ts c' ∧ Initializer ts init := by
  unfold forInitializer at h
  obtain ⟨semicolon, c₁, hsemicolon, h₁⟩ := bind_clean.1 h
  -- A semicolon means that there is no clause, and the word `var` that it declares a variable.
  cases semicolon with
  | some semicolon =>
      obtain ⟨hkind, hread⟩ := take?_reads hsemicolon
      cases h₁
      exact ⟨_, hread, .absent (by simpa using hkind)⟩
  | none =>
      obtain ⟨-, rfl⟩ := take?_none (by decide) hsemicolon
      obtain ⟨word, c₂, hword, h₂⟩ := bind_clean.1 h₁
      cases word with
      | some word =>
          obtain ⟨hkind, hread⟩ := take?_reads hword
          obtain ⟨s, hs, rfl⟩ := map_clean.1 h₂
          obtain ⟨ts, hts, hbinding⟩ := variableDeclaration_sound (hread.closed hc) hs
          exact ⟨_, hread.trans hts, .binding (by simpa using hkind) hbinding⟩
      | none =>
          obtain ⟨-, rfl⟩ := take?_none (by decide) hword
          obtain ⟨s, hs, rfl⟩ := map_clean.1 h₂
          obtain ⟨ts, semicolon, e, rfl, hts, hderives, hends⟩ :=
            expressionStatement_sound hc hs
          exact ⟨_, hts, .expression hderives hends⟩

/-- A `return` behind its word. What stands behind the statement does not matter to it. -/
theorem returnStatement_sound {n : Nat} {word : Token} {c c' : Cursor} {s : Stmt}
    (hword : word.kind = .keyword .returnWord) (hc : c.Closed)
    (h : returnStatement n word c = .done s [] c') :
    ∃ ts, c.Reads ts c' ∧ Statement (word :: ts) c'.rest s := by
  rw [returnStatement_eq] at h
  obtain ⟨result, c₁, hresult, h₁⟩ := bind_clean.1 h
  obtain ⟨ts, hts, hclause⟩ := expressionBefore_sound hc hresult
  obtain ⟨semicolon, c₂, hsemicolon, h₂⟩ := bind_clean.1 h₁
  obtain ⟨hends, hread⟩ := demand_reads (by decide) hsemicolon
  cases h₂
  exact ⟨_, hts.trans hread, .giveBack hword hclause hends⟩

/-- Without an error, nothing is recovered from. -/
theorem recover_clean {α : Type} {p : Parser α} {c c' : Cursor} {x : Option α}
    (h : recover p c = .done x [] c') : ∃ value, x = some value ∧ p c = .done value [] c' := by
  unfold recover at h
  cases hp : p c with
  | done value errors c₁ =>
      rw [hp] at h
      cases h
      exact ⟨value, rfl, rfl⟩
  | fault error errors c₁ =>
      rw [hp] at h
      simp at h
  | starved =>
      rw [hp] at h
      cases h

mutual

/-- A declaration that is read cleanly follows the grammar, in front of the tokens that are left. -/
theorem declaration_sound : ∀ n {c c' s}, c.Closed → declaration n c = .done (some s) [] c' →
    ∃ ts, c.Reads ts c' ∧ Declaration ts c'.rest s
  | 0, _, _, _, _, h => by cases h
  | n + 1, c, c', s, hc, h => by
    unfold declaration at h
    obtain ⟨_, heq, h₀⟩ := recover_clean h
    cases heq
    obtain ⟨word, c₁, hword, h₁⟩ := bind_clean.1 h₀
    cases word with
    | none =>
        obtain ⟨-, rfl⟩ := take?_none (by decide) hword
        obtain ⟨ts, hts, hstatement⟩ := statement_sound n hc h₁
        exact ⟨ts, hts, .statement hstatement⟩
    | some word =>
        obtain ⟨hkind, hread⟩ := take?_reads hword
        dsimp only at h₁
        split at h₁
        case isTrue hfun =>
          obtain ⟨ts, hts, hfunction⟩ :=
            functionDeclaration_sound n (Token.is_eq_true.1 hfun) (hread.closed hc) h₁
          exact ⟨_, hread.trans hts, hfunction⟩
        case isFalse hfun =>
          -- Only two words were looked for, and it is not the first of them.
          have hvar : word.kind = .keyword .varWord := by
            rw [Token.is_eq_true] at hfun
            simpa [hfun] using hkind
          obtain ⟨ts, hts, hbinding⟩ := variableDeclaration_sound (hread.closed hc) h₁
          exact ⟨_, hread.trans hts, .binding hvar hbinding⟩

/-- Declarations up to a place where none starts. Outside of a block this can only be the end. -/
theorem declarations_sound : ∀ n {inBlock c c' ss}, c.Closed →
    declarations n inBlock c = .done ss [] c' →
    ∃ ts, c.Reads ts c' ∧ Declarations ts c'.rest ss ∧ (inBlock = false → c'.atEnd = true)
  | 0, _, _, _, _, _, h => by cases h
  | n + 1, inBlock, c, c', ss, hc, h => by
    unfold declarations at h
    rw [bind_of_clean (atEnd_apply c), bind_of_clean (check_apply _ c)] at h
    split at h
    case isTrue hstop =>
      cases h
      refine ⟨[], .refl _, .nil, ?_⟩
      rintro rfl
      simpa using hstop
    case isFalse =>
      obtain ⟨first, c₁, hfirst, h₁⟩ := bind_clean.1 h
      obtain ⟨more, c₂, hmore, h₂⟩ := bind_clean.1 h₁
      cases h₂
      cases first with
      | none =>
          -- A declaration is dropped only for an error.
          cases n with
          | zero => cases hfirst
          | succ n =>
              unfold declaration at hfirst
              obtain ⟨_, hnone, -⟩ := recover_clean hfirst
              cases hnone
      | some first =>
          obtain ⟨ts, hts, hdeclaration⟩ := declaration_sound n hc hfirst
          obtain ⟨us, hus, hdeclarations, hend⟩ := declarations_sound n (hts.closed hc) hmore
          refine ⟨ts ++ us, hts.trans hus, .cons ?_ hdeclarations, hend⟩
          -- `Declaration` knows the tokens behind it, which start with those of the others.
          rw [← hus.rest]
          exact hdeclaration

/-- A block behind its brace: declarations in front of a closing brace, which is read as well. -/
theorem block_sound : ∀ n {c c' body}, c.Closed → block n c = .done body [] c' →
    ∃ ts right, c.Reads (ts ++ [right]) c' ∧ Declarations ts (right :: c'.rest) body ∧
      right.kind = .mark .rightBrace
  | 0, _, _, _, _, h => by cases h
  | n + 1, c, c', body, hc, h => by
    unfold block at h
    obtain ⟨body, c₁, hbody, h₁⟩ := bind_clean.1 h
    obtain ⟨ts, hts, hdeclarations, -⟩ := declarations_sound n hc hbody
    obtain ⟨right, c₂, hright, h₂⟩ := bind_clean.1 h₁
    obtain ⟨hkind, hread⟩ := demand_reads (by decide) hright
    cases h₂
    refine ⟨ts, right, hts.trans hread, ?_, hkind⟩
    rw [hread.rest] at hdeclarations
    exact hdeclarations

/-- A function behind its word: its name, its parameters, and its block. -/
theorem functionDeclaration_sound : ∀ n {word c c' s}, word.kind = .keyword .funWord →
    c.Closed → functionDeclaration n c = .done s [] c' →
    ∃ ts, c.Reads ts c' ∧ Declaration (word :: ts) c'.rest s
  | 0, _, _, _, _, _, _, h => by cases h
  | n + 1, word, c, c', s, hword, hc, h => by
    unfold functionDeclaration at h
    obtain ⟨name, c₁, hname, h₁⟩ := bind_clean.1 h
    obtain ⟨hname, hread₁⟩ := demand_reads (by decide) hname
    obtain ⟨opening, c₂, hopening, h₂⟩ := bind_clean.1 h₁
    obtain ⟨hopening, hread₂⟩ := demand_reads (by decide) hopening
    have hc₂ := hread₂.closed (hread₁.closed hc)
    -- What follows the parameters, whether there are any or not.
    have hlater : ∀ (params : List Token) {ps : List Token} {c₃ : Cursor}, c₂.Reads ps c₃ →
        CommaList (params.map fun p => [p]) ps → (∀ p ∈ params, p.kind = .identifier) →
        params.length ≤ 255 →
        (expect (.mark .rightParen) "after parameters" >>= fun _ =>
          expect (.mark .leftBrace) "before function body" >>= fun _ =>
            block n >>= fun body => pure (Stmt.function name params body)) c₃
          = .done s [] c' →
        ∃ ts, c.Reads ts c' ∧ Declaration (word :: ts) c'.rest s := by
      intro params ps c₃ hps hcommas hnames hsize h₃
      obtain ⟨closing, c₄, hclosing, h₄⟩ := bind_clean.1 h₃
      obtain ⟨hclosing, hread₄⟩ := demand_reads (by decide) hclosing
      obtain ⟨left, c₅, hleft, h₅⟩ := bind_clean.1 h₄
      obtain ⟨hleft, hread₅⟩ := demand_reads (by decide) hleft
      obtain ⟨body, c₆, hbody, h₆⟩ := bind_clean.1 h₅
      obtain ⟨ts, right, hts, hdeclarations, hright⟩ :=
        block_sound n (hread₅.closed (hread₄.closed (hps.closed hc₂))) hbody
      cases h₆
      exact ⟨_, hread₁.trans (hread₂.trans (hps.trans (hread₄.trans (hread₅.trans hts)))),
        .function hword hname hopening hcommas hnames hsize hclosing hleft hdeclarations
          hright⟩
    obtain ⟨closes, _, hcloses, h₃⟩ := bind_clean.1 h₂
    cases hcloses
    cases hcheck : c₂.check (.mark .rightParen) with
    | true =>
        rw [hcheck] at h₃
        obtain ⟨params, c₃, hparams, h₄⟩ := bind_clean.1 h₃
        cases hparams
        exact hlater [] (.refl _) .none (by simp) (by decide) h₄
    | false =>
        rw [hcheck] at h₃
        obtain ⟨params, c₃, hparams, h₄⟩ := bind_clean.1 h₃
        obtain ⟨ps, -, hps, hcommas, hnames, hsize⟩ := parameters_sound n hparams
        exact hlater params hps hcommas hnames (by omega) h₄

/-- A statement in front of the tokens that are left. Its first token says which rule of the grammar
it follows. -/
theorem statement_sound : ∀ n {c c' s}, c.Closed → statement n c = .done s [] c' →
    ∃ ts, c.Reads ts c' ∧ Statement ts c'.rest s
  | 0, _, _, _, _, h => by cases h
  | n + 1, c, c', s, hc, h => by
    rw [statement_succ] at h
    obtain ⟨word, c₁, hword, h₁⟩ := bind_clean.1 h
    cases word with
    | none =>
        obtain ⟨-, rfl⟩ := take?_none (by decide) hword
        obtain ⟨ts, semicolon, e, rfl, hts, hderives, hends⟩ := expressionStatement_sound hc h₁
        exact ⟨_, hts, .expression hderives hends⟩
    | some word =>
        obtain ⟨hkind, hread⟩ := take?_reads hword
        have hc₁ := hread.closed hc
        replace h₁ : opened n word c₁ = .done s [] c' := h₁
        -- The first word decides which kind of statement it is, and each has its own parser.
        obtain ⟨hkind, heq⟩ | ⟨hkind, heq⟩ | ⟨hkind, heq⟩ | ⟨hkind, heq⟩ | ⟨hkind, heq⟩ :=
          opened_cases n hkind <;> rw [heq] at h₁
        · obtain ⟨ts, hts, hstatement⟩ := forStatement_sound n hkind hc₁ h₁
          exact ⟨_, hread.trans hts, hstatement⟩
        · obtain ⟨ts, hts, hstatement⟩ := ifStatement_sound n hkind hc₁ h₁
          exact ⟨_, hread.trans hts, hstatement⟩
        · obtain ⟨ts, hts, hstatement⟩ := returnStatement_sound hkind hc₁ h₁
          exact ⟨_, hread.trans hts, hstatement⟩
        · obtain ⟨ts, hts, hstatement⟩ := whileStatement_sound n hkind hc₁ h₁
          exact ⟨_, hread.trans hts, hstatement⟩
        · obtain ⟨body, hbody, rfl⟩ := map_clean.1 h₁
          obtain ⟨ts, right, hts, hdeclarations, hright⟩ := block_sound n hc₁ hbody
          exact ⟨_, hread.trans hts, .block hkind hdeclarations hright⟩

/-- A `for` loop behind its word. All of its clauses are needed before the rule can be applied. -/
theorem forStatement_sound : ∀ n {word c c' s}, word.kind = .keyword .forWord → c.Closed →
    forStatement n c = .done s [] c' → ∃ ts, c.Reads ts c' ∧ Statement (word :: ts) c'.rest s
  | 0, _, _, _, _, _, _, h => by cases h
  | n + 1, word, c, c', s, hword, hc, h => by
    unfold forStatement at h
    obtain ⟨opening, c₁, hopening, h₁⟩ := bind_clean.1 h
    obtain ⟨hopening, hread₁⟩ := demand_reads (by decide) hopening
    have hc₁ := hread₁.closed hc
    obtain ⟨init, c₂, hinit, h₂⟩ := bind_clean.1 h₁
    obtain ⟨ds, hds, hinit⟩ := forInitializer_sound hc₁ hinit
    have hc₂ := hds.closed hc₁
    obtain ⟨condition, c₃, hcondition, h₃⟩ := bind_clean.1 h₂
    obtain ⟨cs, hcs, hcondition⟩ := expressionBefore_sound hc₂ hcondition
    obtain ⟨semicolon, c₄, hsemicolon, h₄⟩ := bind_clean.1 h₃
    obtain ⟨hsemicolon, hread₄⟩ := demand_reads (by decide) hsemicolon
    have hc₄ := hread₄.closed (hcs.closed hc₂)
    obtain ⟨increment, c₅, hincrement, h₅⟩ := bind_clean.1 h₄
    obtain ⟨is, his, hincrement⟩ := expressionBefore_sound hc₄ hincrement
    obtain ⟨closing, c₆, hclosing, h₆⟩ := bind_clean.1 h₅
    obtain ⟨hclosing, hread₆⟩ := demand_reads (by decide) hclosing
    obtain ⟨body, c₇, hbody, h₇⟩ := bind_clean.1 h₆
    obtain ⟨ts, hts, hbody⟩ := statement_sound n (hread₆.closed (his.closed hc₄)) hbody
    cases h₇
    refine ⟨_, hread₁.trans (hds.trans (hcs.trans (hread₄.trans (his.trans
      (hread₆.trans hts))))), ?_⟩
    -- The grammar says what a `for` stands for by one tree, the parser by layers.
    rw [← forTree_eq_ofFor]
    exact .forLoop hword hopening hinit hcondition hsemicolon hincrement hclosing hbody

/-- An `if` behind its word. The grammar asks what follows the first branch, and so the rest of the
tokens is carried along. -/
theorem ifStatement_sound : ∀ n {word c c' s}, word.kind = .keyword .ifWord → c.Closed →
    ifStatement n c = .done s [] c' → ∃ ts, c.Reads ts c' ∧ Statement (word :: ts) c'.rest s
  | 0, _, _, _, _, _, _, h => by cases h
  | n + 1, word, c, c', s, hword, hc, h => by
    unfold ifStatement at h
    obtain ⟨opening, c₁, hopening, h₁⟩ := bind_clean.1 h
    obtain ⟨hopening, hread₁⟩ := demand_reads (by decide) hopening
    have hc₁ := hread₁.closed hc
    obtain ⟨condition, c₂, hcondition, h₂⟩ := bind_clean.1 h₁
    obtain ⟨cs, hcs, hcondition⟩ := expression_sound n hc₁ hcondition
    obtain ⟨closing, c₃, hclosing, h₃⟩ := bind_clean.1 h₂
    obtain ⟨hclosing, hread₃⟩ := demand_reads (by decide) hclosing
    have hc₃ := hread₃.closed (hcs.closed hc₁)
    obtain ⟨yes, c₄, hyes, h₄⟩ := bind_clean.1 h₃
    obtain ⟨ts, hts, hyes⟩ := statement_sound n hc₃ hyes
    obtain ⟨otherwise, c₅, hotherwise, h₅⟩ := bind_clean.1 h₄
    cases otherwise with
    | none =>
        -- No `else` follows: this is what binds an `else` to the nearest `if`.
        obtain ⟨hnone, rfl⟩ := take?_none (by decide) hotherwise
        cases h₅
        exact ⟨_, hread₁.trans (hcs.trans (hread₃.trans hts)),
          .ifThen hword hopening hcondition hclosing hyes hnone⟩
    | some otherwise =>
        obtain ⟨hkind, hread₅⟩ := take?_reads hotherwise
        obtain ⟨no, c₆, hno, h₆⟩ := bind_clean.1 h₅
        obtain ⟨us, hus, hno⟩ := statement_sound n (hread₅.closed (hts.closed hc₃)) hno
        cases h₆
        -- The first branch stands in front of the `else`, and not of what is left at the end.
        rw [hread₅.rest, hus.rest] at hyes
        exact ⟨_, hread₁.trans (hcs.trans (hread₃.trans (hts.trans (hread₅.trans hus)))),
          .ifElse hword hopening hcondition hclosing hyes (by simpa using hkind) hno⟩

/-- A `while` loop behind its word. -/
theorem whileStatement_sound : ∀ n {word c c' s}, word.kind = .keyword .whileWord →
    c.Closed → whileStatement n c = .done s [] c' →
    ∃ ts, c.Reads ts c' ∧ Statement (word :: ts) c'.rest s
  | 0, _, _, _, _, _, _, h => by cases h
  | n + 1, word, c, c', s, hword, hc, h => by
    unfold whileStatement at h
    obtain ⟨opening, c₁, hopening, h₁⟩ := bind_clean.1 h
    obtain ⟨hopening, hread₁⟩ := demand_reads (by decide) hopening
    have hc₁ := hread₁.closed hc
    -- What was read is put together from the parts, in the order in which they were read.
    obtain ⟨condition, c₂, hcondition, h₂⟩ := bind_clean.1 h₁
    obtain ⟨cs, hcs, hcondition⟩ := expression_sound n hc₁ hcondition
    obtain ⟨closing, c₃, hclosing, h₃⟩ := bind_clean.1 h₂
    obtain ⟨hclosing, hread₃⟩ := demand_reads (by decide) hclosing
    obtain ⟨body, c₄, hbody, h₄⟩ := bind_clean.1 h₃
    obtain ⟨ts, hts, hbody⟩ := statement_sound n (hread₃.closed (hcs.closed hc₁)) hbody
    cases h₄
    exact ⟨_, hread₁.trans (hcs.trans (hread₃.trans hts)),
      .loop hword hopening hcondition hclosing hbody⟩

end

end Parser

end Scriptlet
