import Scriptlet.Tree.Parse

/-!
# `Scriptlet.Proofs.Parser.Reply`: how parsers are put together

What the parts of a parser do, said once so that no later proof opens them again. Three
ways of speaking about a reply are used:

* a *clean* reply, `.done value [] c`: a value and no error. `bind_clean` takes a clean
  reply of two parsers in a row apart, and `bind_of_clean` puts one together;
* `Reply.Meets`: a reply that is not starved and whose cursor is as expected, whether the
  parser found what it looked for or not. `meets_bind` is the rule for two parsers in a row;
* `Reply.Below`: a reply that a larger supply of steps leaves as it is. `below_bind` is the
  rule for two parsers in a row.

`StartsWith` says which kinds of token a list of tokens starts with. All that the parsers
ask about the tokens ahead is said through it (`check_eq_true`, `take?_cases`).
-/

set_option autoImplicit false

namespace Scriptlet

/-- The test of a kind and the equation between kinds say the same. -/
theorem Token.is_eq_true {t : Token} {kind : Kind} : t.is kind = true ↔ t.kind = kind :=
  decide_eq_true_iff

/-- The first of the tokens is of one of these kinds. -/
def StartsWith (kinds : List Kind) (ts : List Token) : Prop :=
  ∃ t rest, ts = t :: rest ∧ t.kind ∈ kinds

/-- A list that is not empty starts with its first token. -/
@[simp] theorem startsWith_cons {kinds : List Kind} {t : Token} {ts : List Token} :
    StartsWith kinds (t :: ts) ↔ t.kind ∈ kinds := by
  simp [StartsWith]

/-- The empty list starts with nothing. -/
@[simp] theorem not_startsWith_nil {kinds : List Kind} : ¬ StartsWith kinds [] := by
  simp [StartsWith]

/-- Fewer kinds, fewer lists that start with them. -/
theorem StartsWith.mono {kinds more : List Kind} {ts : List Token} (h : StartsWith kinds ts)
    (hsub : kinds ⊆ more) : StartsWith more ts := by
  obtain ⟨t, rest, hts, ht⟩ := h
  exact ⟨t, rest, hts, hsub ht⟩

namespace Cursor

/-- Where a token of a kind can be read, it comes first, and it is not the end. -/
theorem of_check {c : Cursor} {kind : Kind} (h : c.check kind = true) :
    ∃ t rest, c.rest = t :: rest ∧ t.kind = kind ∧ kind ≠ .eof := by
  obtain ⟨last, rest⟩ := c
  cases rest with
  | nil => simp [check, atEnd] at h
  | cons t rest =>
      simp only [check, atEnd, peek, List.headD_cons, Bool.and_eq_true, Bool.not_eq_true',
        ← Bool.not_eq_true, Token.is_eq_true] at h
      exact ⟨t, rest, rfl, h.2, h.2 ▸ h.1⟩

/-- A token of a kind that does not mark the end can be read when it comes first. -/
theorem check_eq_true {c : Cursor} {kind : Kind} (h : kind ≠ .eof) :
    c.check kind = true ↔ StartsWith [kind] c.rest := by
  constructor
  · intro hcheck
    obtain ⟨t, rest, hrest, ht, -⟩ := of_check hcheck
    exact ⟨t, rest, hrest, by simp [ht]⟩
  · rintro ⟨t, rest, hrest, ht⟩
    have ht : t.kind = kind := List.mem_singleton.1 ht
    have hne : t.is .eof = false := by
      rw [← Bool.not_eq_true, Token.is_eq_true, ht]
      exact h
    simp [check, atEnd, peek, hrest, hne, Token.is_eq_true.2 ht]

/-- Where a token of a kind cannot be read, something else comes first, or nothing. -/
theorem check_eq_false {c : Cursor} {kind : Kind} (h : kind ≠ .eof) :
    c.check kind = false ↔ ¬ StartsWith [kind] c.rest := by
  rw [← check_eq_true h, Bool.not_eq_true]

/-- A token of one of several kinds can be read when it comes first. -/
theorem any_check {c : Cursor} {kinds : List Kind} (h : .eof ∉ kinds) :
    kinds.any c.check = true ↔ StartsWith kinds c.rest := by
  rw [List.any_eq_true]
  constructor
  · rintro ⟨kind, hkind, hcheck⟩
    have hne : kind ≠ .eof := fun he => h (he ▸ hkind)
    exact ((check_eq_true hne).1 hcheck).mono (by simpa using hkind)
  · rintro ⟨t, rest, hrest, ht⟩
    have hne : t.kind ≠ .eof := fun he => h (he ▸ ht)
    exact ⟨t.kind, ht, (check_eq_true hne).2 ⟨t, rest, hrest, by simp⟩⟩

/-- Going past a token that is not the end. -/
theorem advance_cons {last t : Token} {rest : List Token} (h : t.kind ≠ .eof) :
    advance ⟨last, t :: rest⟩ = ⟨last, rest⟩ := by
  simp [advance, atEnd, Token.is, h]

/-- The token in sight is the first one ahead. -/
@[simp] theorem peek_cons {last t : Token} {rest : List Token} :
    peek ⟨last, t :: rest⟩ = t := rfl

/-- The cursor `c` is a later place than `c₀` in the same list of tokens. -/
structure Behind (c c₀ : Cursor) : Prop where
  last : c.last = c₀.last
  rest : c.rest <:+ c₀.rest

/-- No place is in front of itself. -/
theorem Behind.refl (c : Cursor) : Behind c c := ⟨rfl, List.suffix_refl _⟩

/-- Later than a later place is later. -/
theorem Behind.trans {c₂ c₁ c₀ : Cursor} (h : Behind c₂ c₁) (h' : Behind c₁ c₀) :
    Behind c₂ c₀ :=
  ⟨h.last.trans h'.last, h.rest.trans h'.rest⟩

/-- At a later place there are at most as many tokens ahead. -/
theorem Behind.length_le {c c₀ : Cursor} (h : Behind c c₀) :
    c.rest.length ≤ c₀.rest.length :=
  h.rest.length_le

/-- One step past a token. -/
theorem behind_cons {c c₀ : Cursor} {t : Token} (hrest : c₀.rest = t :: c.rest)
    (hlast : c.last = c₀.last) : Behind c c₀ :=
  ⟨hlast, hrest ▸ List.suffix_cons t c.rest⟩

end Cursor

namespace Parser

variable {α β : Type}

/-- Giving a value reads nothing and finds no error. -/
@[simp] theorem pure_apply (value : α) (c : Cursor) :
    (pure value : Parser α) c = .done value [] c := rfl

/-! ### Clean replies -/

/-- Two parsers in a row reply cleanly when the second goes on cleanly where the first
stopped cleanly. -/
theorem bind_clean {p : Parser α} {f : α → Parser β} {c c₂ : Cursor} {w : β} :
    (p >>= f) c = .done w [] c₂ ↔
      ∃ v c₁, p c = .done v [] c₁ ∧ f v c₁ = .done w [] c₂ := by
  show Parser.bind p f c = .done w [] c₂ ↔ _
  unfold Parser.bind
  cases p c with
  | done v early c₁ =>
      -- The errors of both parsers are put together, so none is left only if none was found.
      cases hf : f v c₁ with
      | done w' late c₂' =>
          simp only [Reply.after, hf, Reply.done.injEq, List.append_eq_nil_iff]
          constructor
          · rintro ⟨hw, ⟨hearly, hlate⟩, hc⟩
            exact ⟨v, c₁, ⟨rfl, hearly, rfl⟩, by rw [hf, hw, hlate, hc]⟩
          · rintro ⟨v', c₁', ⟨rfl, hearly, rfl⟩, h⟩
            rw [hf] at h
            cases h
            exact ⟨rfl, ⟨hearly, rfl⟩, rfl⟩
      | fault error late c₂' =>
          simp only [Reply.after, hf, Reply.done.injEq, reduceCtorEq, false_iff]
          rintro ⟨v', c₁', ⟨rfl, -, rfl⟩, h⟩
          rw [hf] at h
          cases h
      | starved =>
          simp only [Reply.after, hf, Reply.done.injEq, reduceCtorEq, false_iff]
          rintro ⟨v', c₁', ⟨rfl, -, rfl⟩, h⟩
          rw [hf] at h
          cases h
  | fault error early c₁ => simp
  | starved => simp

/-- Behind a clean reply the second parser decides alone. -/
theorem bind_of_clean {p : Parser α} {f : α → Parser β} {c c₁ : Cursor} {v : α}
    (h : p c = .done v [] c₁) : (p >>= f) c = f v c₁ := by
  show Parser.bind p f c = f v c₁
  unfold Parser.bind
  rw [h]
  show Reply.after [] (f v c₁) = f v c₁
  cases f v c₁ <;> rfl

/-- What follows a parser sees its reply only. -/
theorem bind_congr {p q : Parser α} {f : α → Parser β} {c : Cursor} (h : p c = q c) :
    (p >>= f) c = (q >>= f) c := by
  show Parser.bind p f c = Parser.bind q f c
  unfold Parser.bind
  rw [h]

/-- Changing the value of a reply keeps it clean, and makes no reply clean that was not. -/
theorem map_clean {p : Parser α} {g : α → β} {c c' : Cursor} {w : β} :
    (g <$> p) c = .done w [] c' ↔ ∃ v, p c = .done v [] c' ∧ g v = w := by
  show (p >>= fun v => pure (g v)) c = _ ↔ _
  rw [bind_clean]
  simp only [pure_apply, Reply.done.injEq, true_and]
  constructor
  · rintro ⟨v, c₁, h, hw, rfl⟩
    exact ⟨v, h, hw⟩
  · rintro ⟨v, h, hw⟩
    exact ⟨v, c', h, hw, rfl⟩

/-- Looking for a kind of token always replies cleanly, and reads nothing. -/
theorem check_apply (kind : Kind) (c : Cursor) :
    check kind c = .done (c.check kind) [] c := rfl

/-- So does looking for the end. -/
theorem atEnd_apply (c : Cursor) : atEnd c = .done c.atEnd [] c := rfl

/-- So does looking at the next token. -/
theorem peek_apply (c : Cursor) : peek c = .done c.peek [] c := rfl

/-- What `take?` gives: the first token if it is of one of the kinds, and nothing
otherwise. The end is never taken. -/
theorem take?_cases (kinds : List Kind) (c : Cursor) :
    (∃ t rest, c.rest = t :: rest ∧ t.kind ∈ kinds ∧ t.kind ≠ .eof ∧
      take? kinds c = .done (some t) [] ⟨c.last, rest⟩) ∨
    ((.eof ∉ kinds → ¬ StartsWith kinds c.rest) ∧ take? kinds c = .done none [] c) := by
  by_cases hany : kinds.any c.check = true
  · obtain ⟨kind, hkind, hcheck⟩ := List.any_eq_true.1 hany
    obtain ⟨t, rest, hrest, rfl, hne⟩ := Cursor.of_check hcheck
    refine .inl ⟨t, rest, hrest, hkind, hne, ?_⟩
    unfold take?
    -- What is seen is what is ahead, as the end was excluded.
    rw [if_pos hany]
    obtain ⟨last, cRest⟩ := c
    cases hrest
    rw [Cursor.advance_cons hne]
    rfl
  · refine .inr ⟨fun h hstart => hany ((Cursor.any_check h).2 hstart), ?_⟩
    unfold take?
    rw [if_neg hany]

/-- A token of one of the kinds is taken when it comes first. -/
theorem take?_of_mem {kinds : List Kind} (h : .eof ∉ kinds) {last t : Token}
    {rest : List Token} (ht : t.kind ∈ kinds) :
    take? kinds ⟨last, t :: rest⟩ = .done (some t) [] ⟨last, rest⟩ := by
  obtain ⟨t', rest', hrest, -, -, heq⟩ | ⟨hnot, -⟩ := take?_cases kinds ⟨last, t :: rest⟩
  · cases hrest
    exact heq
  · exact absurd (startsWith_cons.2 ht) (hnot h)

/-- Nothing is taken when none of the kinds comes first. -/
theorem take?_of_not {kinds : List Kind} {c : Cursor} (hnot : ¬ StartsWith kinds c.rest) :
    take? kinds c = .done none [] c := by
  obtain ⟨t, rest, hrest, ht, -, -⟩ | ⟨-, heq⟩ := take?_cases kinds c
  · exact absurd ⟨t, rest, hrest, ht⟩ hnot
  · exact heq

/-- Where nothing was taken, none of the kinds came first. -/
theorem take?_none {kinds : List Kind} (h : .eof ∉ kinds) {c c' : Cursor}
    {errors : List StaticError} (heq : take? kinds c = .done none errors c') :
    ¬ StartsWith kinds c.rest ∧ c' = c := by
  obtain ⟨t', rest', hrest, ht', -, heq'⟩ | ⟨hnot, heq'⟩ := take?_cases kinds c
  · rw [heq'] at heq
    cases heq
  · rw [heq'] at heq
    cases heq
    exact ⟨hnot h, rfl⟩

/-- What `expect` and `expectName` have in common: the next token has to be of a kind, and
the error says what is missing. -/
def demand (kind : Kind) (defect : Defect) : Parser Token := fun c =>
  if c.check kind then .done c.peek [] c.advance else .fault (.ofToken c.peek defect) [] c

/-- What `demand` gives: the first token if it is of the kind, and otherwise an error that
leaves the cursor where it is. -/
theorem demand_cases {kind : Kind} (h : kind ≠ .eof) (defect : Defect) (c : Cursor) :
    (∃ t rest, c.rest = t :: rest ∧ t.kind = kind ∧
      demand kind defect c = .done t [] ⟨c.last, rest⟩) ∨
    (¬ StartsWith [kind] c.rest ∧
      demand kind defect c = .fault (.ofToken c.peek defect) [] c) := by
  -- Looking at the next token tells both cases apart, since the end token is never asked for.
  by_cases hstart : StartsWith [kind] c.rest
  · obtain ⟨t, rest, hrest, ht⟩ := hstart
    have ht : t.kind = kind := List.mem_singleton.1 ht
    refine .inl ⟨t, rest, hrest, ht, ?_⟩
    unfold demand
    rw [if_pos ((Cursor.check_eq_true h).2 ⟨t, rest, hrest, by simp [ht]⟩)]
    obtain ⟨last, cRest⟩ := c
    cases hrest
    rw [Cursor.advance_cons (ht ▸ h)]
    rfl
  · refine .inr ⟨hstart, ?_⟩
    unfold demand
    rw [if_neg (fun hc => hstart ((Cursor.check_eq_true h).1 hc))]

/-- A token that has to be there is read when it comes first. -/
theorem demand_of_kind {kind : Kind} (h : kind ≠ .eof) {defect : Defect} {last t : Token}
    {rest : List Token} (ht : t.kind = kind) :
    demand kind defect ⟨last, t :: rest⟩ = .done t [] ⟨last, rest⟩ := by
  obtain ⟨t', rest', hrest, -, heq⟩ | ⟨hnot, -⟩ := demand_cases h defect ⟨last, t :: rest⟩
  · cases hrest
    exact heq
  · exact absurd (startsWith_cons.2 (by simp [ht])) hnot

/-- A token that was demanded and found came first and is of the kind. -/
theorem demand_done {kind : Kind} (h : kind ≠ .eof) {defect : Defect} {c c' : Cursor}
    {t : Token} {errors : List StaticError} (heq : demand kind defect c = .done t errors c') :
    t.kind = kind ∧ c.rest = t :: c'.rest ∧ c'.last = c.last := by
  obtain ⟨t', rest', hrest, ht', heq'⟩ | ⟨-, heq'⟩ := demand_cases h defect c
  · rw [heq'] at heq
    cases heq
    exact ⟨ht', hrest, rfl⟩
  · rw [heq'] at heq
    cases heq

/-- The limit check is silent below the limit and reports one error from it on. -/
theorem checkLimit_apply (count : Nat) (defect : Defect) (c : Cursor) :
    checkLimit count defect c =
      .done () (if argumentLimit ≤ count then [.ofToken c.peek defect] else []) c := by
  unfold checkLimit
  split <;> rfl

/-- The limit check finds no error as long as there is room for one more item. -/
theorem checkLimit_clean {count : Nat} {defect : Defect} {c c' : Cursor} {u : Unit} :
    checkLimit count defect c = .done u [] c' ↔ count < argumentLimit ∧ c' = c := by
  rw [checkLimit_apply]
  by_cases h : argumentLimit ≤ count
  · simp [h, Nat.not_lt_of_le h]
  · simp [h, eq_comm, Nat.lt_of_not_le h]

end Parser

/-! ### Replies that are not starved -/

/-- A reply that is not starved: its cursor is as `done` says if it has a value, and as
`fault` says if an error stopped the parser. -/
def Reply.Meets {α : Type} (done : α → Cursor → Prop) (fault : Cursor → Prop) :
    Reply α → Prop
  | .done value _ c => done value c
  | .fault _ _ c => fault c
  | .starved => False

/-- The expectations on a reply may be weakened. -/
theorem Reply.Meets.imp {α : Type} {Q Q' : α → Cursor → Prop} {E E' : Cursor → Prop}
    {r : Reply α} (h : r.Meets Q E) (hQ : ∀ v c, Q v c → Q' v c) (hE : ∀ c, E c → E' c) :
    r.Meets Q' E' := by
  cases r with
  | done value errors c => exact hQ value c h
  | fault error errors c => exact hE c h
  | starved => exact h

/-- Errors that were found before do not change what is expected of the rest. -/
theorem Reply.meets_after {α : Type} {Q : α → Cursor → Prop} {E : Cursor → Prop}
    {early : List StaticError} {r : Reply α} : (r.after early).Meets Q E ↔ r.Meets Q E := by
  cases r <;> rfl

namespace Parser

variable {α β : Type}

/-- The rule for two parsers in a row. -/
theorem meets_bind {p : Parser α} {f : α → Parser β} {c : Cursor}
    {Q : α → Cursor → Prop} {Q' : β → Cursor → Prop} {E E' : Cursor → Prop}
    (hp : (p c).Meets Q E) (hE : ∀ c, E c → E' c)
    (hf : ∀ v c, Q v c → (f v c).Meets Q' E') : ((p >>= f) c).Meets Q' E' := by
  show (Parser.bind p f c).Meets Q' E'
  unfold Parser.bind
  cases h : p c with
  | done v early c₁ =>
      rw [h] at hp
      exact Reply.meets_after.2 (hf v c₁ hp)
  | fault error early c₁ =>
      rw [h] at hp
      exact hE c₁ hp
  | starved =>
      rw [h] at hp
      exact hp

/-- The rule for taking a token if there is one. -/
theorem meets_take? {kinds : List Kind} {f : Option Token → Parser β} {c : Cursor}
    {Q : β → Cursor → Prop} {E : Cursor → Prop}
    (hsome : ∀ t c', t.kind ∈ kinds → c.rest = t :: c'.rest → c'.last = c.last →
      (f (some t) c').Meets Q E)
    (hnone : (f none c).Meets Q E) : ((take? kinds >>= f) c).Meets Q E := by
  obtain ⟨t, rest, hrest, ht, -, heq⟩ | ⟨-, heq⟩ := take?_cases kinds c
  · rw [bind_of_clean heq]
    exact hsome t ⟨c.last, rest⟩ ht hrest rfl
  · rw [bind_of_clean heq]
    exact hnone

/-- The rule for a token that has to be there. -/
theorem meets_demand {kind : Kind} {defect : Defect} {f : Token → Parser β} {c : Cursor}
    {Q : β → Cursor → Prop} {E : Cursor → Prop} (h : kind ≠ .eof)
    (hdone : ∀ t c', c.rest = t :: c'.rest → c'.last = c.last → (f t c').Meets Q E)
    (hfault : E c) : ((demand kind defect >>= f) c).Meets Q E := by
  obtain ⟨t, rest, hrest, -, heq⟩ | ⟨-, heq⟩ := demand_cases h defect c
  · rw [bind_of_clean heq]
    exact hdone t ⟨c.last, rest⟩ hrest rfl
  · show (Parser.bind (demand kind defect) f c).Meets Q E
    unfold Parser.bind
    rw [heq]
    exact hfault

/-! ### Replies that more steps leave alone -/

end Parser

/-- The reply `s` is the reply `r`, unless that one is starved. -/
def Reply.Below {α : Type} (r s : Reply α) : Prop := r = .starved ∨ r = s

/-- A reply that is not starved is the same with more steps. -/
theorem Reply.Below.eq_of_ne {α : Type} {r s : Reply α} (h : r.Below s) (hr : r ≠ .starved) :
    s = r :=
  (h.resolve_left hr).symm

namespace Parser

variable {α β : Type}

/-- The parser `q` replies as `p` does, wherever that one is not starved. -/
def Below (p q : Parser α) : Prop := ∀ c, (p c).Below (q c)

/-- Every parser is below itself. -/
theorem Below.refl (p : Parser α) : Below p p := fun _ => .inr rfl

/-- A third parser agrees where the second one does, since that one is starved only where the first
one is. -/
theorem Below.trans {p q r : Parser α} (h : Below p q) (h' : Below q r) : Below p r := by
  intro c
  cases h c with
  | inl hp => exact .inl hp
  | inr hp => rw [hp]; exact h' c

/-- A parser without steps is below all others. -/
theorem below_starve (p : Parser α) : Below starve p := fun _ => .inl rfl

/-- The rule for two parsers in a row. -/
theorem below_bind {p q : Parser α} {f g : α → Parser β} (hp : Below p q)
    (hf : ∀ v, Below (f v) (g v)) : Below (p >>= f) (q >>= g) := by
  intro c
  show (Parser.bind p f c).Below (Parser.bind q g c)
  unfold Parser.bind
  -- If the first parser is starved, so are both. If not, it is the same, and the second one
  -- decides.
  cases hp c with
  | inl h => rw [h]; exact .inl rfl
  | inr h =>
      rw [← h]
      cases p c with
      | done v early c₁ =>
          cases hf v c₁ with
          | inl h' =>
              show ((f v c₁).after early).Below ((g v c₁).after early)
              rw [h']
              exact .inl rfl
          | inr h' =>
              show ((f v c₁).after early).Below ((g v c₁).after early)
              rw [h']
              exact .inr rfl
      | fault error early c₁ => exact .inr rfl
      | starved => exact .inl rfl

/-- The rule for a value that is changed. -/
theorem below_map {p q : Parser α} {g : α → β} (hp : Below p q) :
    Below (g <$> p) (g <$> q) :=
  below_bind hp fun _ => Below.refl _

/-- The rule for a parser whose error is reported: with the same reply, the same error is reported
and the same tokens are skipped. -/
theorem below_recover {p q : Parser α} (hp : Below p q) : Below (recover p) (recover q) := by
  intro c
  unfold recover
  cases hp c with
  | inl h => rw [h]; exact .inl rfl
  | inr h => rw [h]; exact .inr rfl

end Parser

/-! ### What is read where an operand may stand -/

/-- The constant that a token stands for, if it stands for one. -/
def Token.constant? (t : Token) : Option Literal :=
  match t.kind with
  | .keyword .falseWord => some (.bool false)
  | .keyword .trueWord => some (.bool true)
  | .keyword .nilWord => some .nil
  | .number | .string => some (t.literal.getD .nil)
  | _ => none

namespace Parser

/-- An expression in parentheses, behind a token that may open it. -/
def grouped (n : Nat) : Option Token → Parser Expr
  | none => fail .expectedExpression
  | some _ => do
    let inner ← expression n
    let _ ← expect (.mark .rightParen) "after expression"
    pure (.group inner)

/-- What `primary` does: it reads a constant, a name, or an expression in parentheses, and
finds no expression anywhere else. -/
theorem primary_cases (n : Nat) (c : Cursor) :
    (∃ value, c.peek.constant? = some value ∧
      primary (n + 1) c = .done (.literal value) [] c.advance) ∨
    (c.peek.kind = .identifier ∧ primary (n + 1) c = .done (.get c.peek) [] c.advance) ∨
    (c.peek.kind = .mark .leftParen ∧
      primary (n + 1) c = (take? [.mark .leftParen] >>= grouped n) c) ∨
    (c.peek.constant? = none ∧ c.peek.kind ≠ .identifier ∧ c.peek.kind ≠ .mark .leftParen ∧
      primary (n + 1) c = .fault (.ofToken c.peek .expectedExpression) [] c) := by
  have hpeek : primary (n + 1) c = _ := bind_of_clean (peek_apply c)
  have hfail : (fail .expectedExpression : Parser Expr) c
      = .fault (.ofToken c.peek .expectedExpression) [] c := rfl
  rw [hpeek]
  unfold Token.constant?
  -- From here on only the kind of the token in sight matters.
  generalize c.peek = t at hfail ⊢
  obtain ⟨kind, lexeme, literal, line⟩ := t
  cases kind with
  | mark m =>
    cases m with
    | leftParen => exact .inr (.inr (.inl ⟨rfl, rfl⟩))
    | _ => exact .inr (.inr (.inr ⟨rfl, nofun, nofun, hfail⟩))
  | identifier => exact .inr (.inl ⟨rfl, rfl⟩)
  | string => exact .inl ⟨_, rfl, rfl⟩
  | number => exact .inl ⟨_, rfl, rfl⟩
  | keyword k =>
    cases k with
    | falseWord => exact .inl ⟨_, rfl, rfl⟩
    | trueWord => exact .inl ⟨_, rfl, rfl⟩
    | nilWord => exact .inl ⟨_, rfl, rfl⟩
    | _ => exact .inr (.inr (.inr ⟨rfl, nofun, nofun, hfail⟩))
  | eof => exact .inr (.inr (.inr ⟨rfl, nofun, nofun, hfail⟩))

/-! ### What is read where a statement may stand -/

/-- The kinds of token that open a statement other than an expression. -/
def statementOpeners : List Kind :=
  [.keyword .forWord, .keyword .ifWord, .keyword .returnWord, .keyword .whileWord,
    .mark .leftBrace]

/-- A statement other than an expression, behind the token that opens it. -/
def opened (n : Nat) (word : Token) : Parser Stmt :=
  match word.kind with
  | .keyword .forWord => forStatement n
  | .keyword .ifWord => ifStatement n
  | .keyword .returnWord => returnStatement n word
  | .keyword .whileWord => whileStatement n
  | _ => Stmt.block <$> block n

/-- With a step to spend, a statement is opened by a token, or it is an expression. -/
theorem statement_succ (n : Nat) :
    statement (n + 1) = take? statementOpeners >>= fun word =>
      match word with
      | none => expressionStatement n
      | some word => opened n word := rfl

/-- Which statement a token opens. -/
theorem opened_cases (n : Nat) {word : Token} (h : word.kind ∈ statementOpeners) :
    (word.kind = .keyword .forWord ∧ opened n word = forStatement n) ∨
    (word.kind = .keyword .ifWord ∧ opened n word = ifStatement n) ∨
    (word.kind = .keyword .returnWord ∧ opened n word = returnStatement n word) ∨
    (word.kind = .keyword .whileWord ∧ opened n word = whileStatement n) ∨
    (word.kind = .mark .leftBrace ∧ opened n word = Stmt.block <$> block n) := by
  simp only [statementOpeners, List.mem_cons, List.not_mem_nil, or_false] at h
  rcases h with h | h | h | h | h <;> simp [opened, h]

/-- A `return` statement is an expression that may be missing, and a semicolon. -/
theorem returnStatement_eq (n : Nat) (word : Token) (c : Cursor) :
    returnStatement n word c = (expressionBefore n (.mark .semicolon) >>= fun result =>
      expect (.mark .semicolon) "after return value" >>= fun _ =>
        pure (Stmt.giveBack word result)) c := by
  unfold returnStatement
  rw [bind_of_clean (check_apply (.mark .semicolon) c)]
  have hbefore := bind_of_clean (f := fun stops : Bool =>
    if stops then pure none else some <$> expression n) (check_apply (.mark .semicolon) c)
  -- Both look for the semicolon first. They differ in where the rest is put together.
  cases hcheck : c.check (.mark .semicolon) with
  | true =>
      rw [hcheck] at hbefore
      exact (bind_congr hbefore).symm
  | false =>
      rw [hcheck] at hbefore
      exact (bind_congr hbefore).symm

end Parser

end Scriptlet
