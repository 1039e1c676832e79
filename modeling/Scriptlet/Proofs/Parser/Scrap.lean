import Scriptlet.Proofs.Parser.Supply

/-!
# `Scriptlet.Proofs.Parser.Scrap`: tokens up to a semicolon

A scrap is any tokens and a semicolon behind them, without braces, without `for` and without an end
token. Whatever is wrong with it, no parser looks behind its semicolon.

* `Scrap.Open`: what is left of a scrap as long as its semicolon has not been read.
* `Reply.Inside`: the reply to the scrap alone, and the reply where something stands behind it. They
  are the same, and the errors are blamed on tokens of the scrap.
* `Parser.Local`: a parser that replies so. There is one lemma for each parser. Expressions end in
  front of the semicolon and statements behind it.
* `Scrap.resume_eq`: after an error, parsing goes on right behind the semicolon.

An error that a parser stops for is told from one that it only reports (`Defect.stops`). A parser
with a value has reported errors of the second kind only.
-/

set_option autoImplicit false

namespace Scriptlet

/-- Whether an error of this kind stops the parser that finds it. -/
def Defect.stops : Defect → Bool
  | .expectedToken _ _ | .expectedName _ | .expectedExpression => true
  | _ => false

/-- The kinds of token that stand in no scrap but for its semicolon. -/
def barred : List Kind :=
  [.mark .semicolon, .mark .leftBrace, .mark .rightBrace, .keyword .forWord, .eof]

/-- Tokens and a semicolon behind them. -/
structure Scrap where
  inner : List Token
  semicolon : Token
  plain : ∀ t ∈ inner, t.kind ∉ barred
  closes : semicolon.kind = .mark .semicolon

namespace Scrap

variable {z : Scrap} {zs : List Token}

/-- All tokens of the scrap. -/
def tokens (z : Scrap) : List Token := z.inner ++ [z.semicolon]

/-- What is left while the semicolon has not been read. -/
structure Open (z : Scrap) (zs : List Token) : Prop where
  unread : zs ≠ []
  suffix : zs <:+ z.tokens

/-- What is left, with the token `t` ahead. -/
structure At (z : Scrap) (t : Token) (zs : List Token) : Prop extends z.Open zs where
  ahead : ∃ r, zs = t :: r

/-- Nothing is left. -/
def Read (zs : List Token) : Prop := zs = []

/-- The error is blamed on a token of the scrap. It stops a parser if `stops` is set. -/
def Blames (z : Scrap) (stops : Bool) (e : StaticError) : Prop :=
  ∃ t ∈ z.tokens, ∃ defect : Defect, defect.stops = stops ∧ e = .ofToken t defect

/-- Before anything is read, all of the scrap is left. -/
theorem open_tokens (z : Scrap) : z.Open z.tokens :=
  ⟨by simp [tokens], List.suffix_refl _⟩

/-- Of the kinds that are barred only the semicolon occurs, and only as the last token. -/
theorem kind_of_mem {t : Token} (h : t ∈ z.tokens) (hkind : t.kind ∈ barred) :
    t.kind = .mark .semicolon := by
  obtain h | h := List.mem_append.1 h
  · exact absurd hkind (z.plain t h)
  · rw [List.mem_singleton.1 h]
    exact z.closes

namespace Open

variable {t : Token} {r : List Token}

/-- As long as the semicolon is unread, some token is ahead. -/
theorem exists_cons (h : z.Open zs) : ∃ t r, zs = t :: r :=
  List.exists_cons_of_ne_nil h.unread

/-- What is ahead is a token of the scrap. -/
theorem mem (h : z.Open (t :: r)) : t ∈ z.tokens := h.suffix.subset List.mem_cons_self

/-- There is no end token in a scrap. -/
theorem kind_ne_eof (h : z.Open (t :: r)) : t.kind ≠ .eof := by
  intro hkind
  have hsemicolon := kind_of_mem h.mem (by rw [hkind]; decide)
  cases hkind.symm.trans hsemicolon

/-- A token with others behind it is not the semicolon. -/
theorem kind_of_ne_nil (h : z.Open (t :: r)) (hr : r ≠ []) : t.kind ≠ .mark .semicolon := by
  obtain ⟨front, hfront⟩ := h.suffix
  obtain rfl | ⟨us, last, rfl⟩ := List.eq_nil_or_concat r
  -- The last token of the scrap is not the one that has others behind it, so this one is further
  -- in.
  · exact absurd rfl hr
  · have htokens : front ++ t :: us ++ [last] = z.inner ++ [z.semicolon] := by
      simpa [tokens] using hfront
    obtain ⟨hinner, -⟩ := List.append_inj' htokens rfl
    have hplain := z.plain t (by simp [← hinner])
    exact fun hkind => hplain (by rw [hkind]; decide)

/-- Behind the semicolon nothing is left. -/
theorem eq_nil (h : z.Open (t :: r)) (ht : t.kind = .mark .semicolon) : r = [] := by
  cases r with
  | nil => rfl
  | cons u r => exact absurd ht (h.kind_of_ne_nil (List.cons_ne_nil u r))

/-- The last token is the semicolon. -/
theorem kind_of_nil (h : z.Open [t]) : t.kind = .mark .semicolon := by
  obtain ⟨front, hfront⟩ := h.suffix
  obtain ⟨-, hlast⟩ := List.append_inj' hfront rfl
  cases hlast
  exact z.closes

/-- Behind another token the scrap goes on. -/
theorem tail (h : z.Open (t :: r)) (ht : t.kind ≠ .mark .semicolon) : z.Open r where
  unread := by
    rintro rfl
    exact ht h.kind_of_nil
  suffix := (List.suffix_cons t r).trans h.suffix

end Open

/-- Skipping stops behind the semicolon, unless something on the way opens a statement. -/
theorem skipStatement_open (rest : List Token) : ∀ {r : List Token} {t : Token}, z.Open (t :: r) →
    (∀ u ∈ r, u.kind.startsStatement = false) → Cursor.skipStatement t (r ++ rest) = rest := by
  intro r
  -- Along what is left of the scrap.
  induction r with
  | nil =>
      intro t h _
      -- The semicolon was passed last, so skipping stops in front of whatever comes.
      cases rest with
      | nil => rfl
      | cons u rest => simp [Cursor.skipStatement, Token.is, h.kind_of_nil]
  | cons u r ih =>
      intro t h hcalm
      have ht : t.kind ≠ .mark .semicolon := h.kind_of_ne_nil (List.cons_ne_nil u r)
      have hopen : z.Open (u :: r) := h.tail ht
      obtain ⟨hu, hr⟩ := List.forall_mem_cons.1 hcalm
      have hskip := ih hopen hr
      simpa [Cursor.skipStatement, Token.is, ht, hopen.kind_ne_eof, hu] using hskip

/-- Parsing goes on behind the semicolon, wherever in the scrap an error was found. Only its first
token may open a statement, as one token is skipped in any case. -/
theorem resume_eq (hlone : ∀ t ∈ z.tokens.tail, t.kind.startsStatement = false) (h : z.Open zs)
    (last : Token) (rest : List Token) : Cursor.resume ⟨last, zs ++ rest⟩ = ⟨last, rest⟩ := by
  obtain ⟨t, r, rfl⟩ := h.exists_cons
  have hcalm : ∀ u ∈ r, u.kind.startsStatement = false := by
    intro u hu
    -- What is left behind its first token is also behind the first token of the whole scrap.
    refine hlone u ?_
    obtain ⟨front, hfront⟩ := h.suffix
    rw [← hfront]
    cases front with
    | nil => exact hu
    | cons v front => simp [hu]
  have hskip := skipStatement_open rest h hcalm
  simp [Cursor.resume, Token.is, h.kind_ne_eof, hskip]

end Scrap

/-! ### Replies and parsers -/

/-- The reply to what is left of a scrap, and the reply where the tokens `rest` stand behind it.
What is left behind a value is as `Q` says. -/
inductive Reply.Inside {α : Type} (z : Scrap) (last : Token) (rest : List Token)
    (Q : List Token → Prop) : Reply α → Reply α → Prop where
  | done {v : α} {es : List StaticError} {zs : List Token} : (∀ e ∈ es, z.Blames false e) → Q zs →
      Reply.Inside z last rest Q (.done v es ⟨z.semicolon, zs⟩) (.done v es ⟨last, zs ++ rest⟩)
  | fault {e : StaticError} {es : List StaticError} {zs : List Token} : z.Blames true e →
      (∀ e ∈ es, z.Blames false e) → z.Open zs →
      Reply.Inside z last rest Q (.fault e es ⟨z.semicolon, zs⟩) (.fault e es ⟨last, zs ++ rest⟩)
  | starved : Reply.Inside z last rest Q .starved .starved

namespace Parser

open Scrap (Read)

variable {α β : Type} {z : Scrap}

/-- Where `P` holds of what is left, the parser replies as if nothing stood behind the scrap. What
stands there does not start with `else`. -/
structure Local (z : Scrap) (P Q : List Token → Prop) (p : Parser α) : Prop where
  reply {zs rest : List Token} (last : Token) : P zs → ¬ StartsWith [.keyword .elseWord] rest →
    (p ⟨z.semicolon, zs⟩).Inside z last rest Q (p ⟨last, zs ++ rest⟩)

namespace Local

variable {P Q R : List Token → Prop}

/-- A parser without steps replies with nothing, whatever stands behind the scrap. -/
theorem starve : Local z P Q (starve : Parser α) := ⟨fun _ _ _ => .starved⟩

/-- Giving a value reads nothing of the scrap. -/
theorem pure (v : α) : Local z P P (pure v) := ⟨fun _ hP _ => .done (List.forall_mem_nil _) hP⟩

/-- Which token is ahead is forgotten. -/
theorem of_open {t : Token} {p : Parser α} (hp : Local z z.Open Q p) : Local z (z.At t) Q p :=
  ⟨fun last hP helse => hp.reply last hP.toOpen helse⟩

/-- The rule for two parsers in a row. -/
theorem bind {p : Parser α} {f : α → Parser β} (hp : Local z P Q p)
    (hf : ∀ v, Local z Q R (f v)) : Local z P R (p >>= f) := by
  refine ⟨fun {zs rest} last hP helse => ?_⟩
  show (Parser.bind p f _).Inside z last rest R (Parser.bind p f _)
  unfold Parser.bind
  have hreply := hp.reply last hP helse
  generalize p ⟨z.semicolon, zs⟩ = r, p ⟨last, zs ++ rest⟩ = r' at hreply
  cases hreply with
  -- The errors of both are blamed on tokens of the scrap, and the second parser starts where the
  -- first one ended.
  | @done v es zs₁ hes hQ =>
      have hnext := (hf v).reply last hQ helse
      show ((f v ⟨z.semicolon, zs₁⟩).after es).Inside z last rest R
        ((f v ⟨last, zs₁ ++ rest⟩).after es)
      generalize f v ⟨z.semicolon, zs₁⟩ = s, f v ⟨last, zs₁ ++ rest⟩ = s' at hnext
      cases hnext with
      | done hes' hR => exact .done (List.forall_mem_append.2 ⟨hes, hes'⟩) hR
      | fault he hes' hopen => exact .fault he (List.forall_mem_append.2 ⟨hes, hes'⟩) hopen
      | starved => exact .starved
  | fault he hes hopen => exact .fault he hes hopen
  | starved => exact .starved

/-- Changing the value of a reply leaves its errors and what is left as they are. -/
theorem map {p : Parser α} (g : α → β) (hp : Local z P Q p) : Local z P Q (g <$> p) :=
  hp.bind fun v => .pure (g v)

/-- Giving up blames the token ahead, which is one of the scrap. -/
theorem fail {defect : Defect} (hdefect : defect.stops = true) :
    Local z z.Open Q (fail defect : Parser α) := by
  refine ⟨fun last hopen _ => ?_⟩
  obtain ⟨t, r, rfl⟩ := hopen.exists_cons
  exact .fault ⟨t, hopen.mem, defect, hdefect, rfl⟩ (List.forall_mem_nil _) hopen

/-- An error about a token of the scrap may be reported without a stop. -/
theorem report {t : Token} (ht : t ∈ z.tokens) {defect : Defect} (hdefect : defect.stops = false) :
    Local z P P (report (.ofToken t defect)) :=
  ⟨fun _ hP _ => .done (List.forall_mem_singleton.2 ⟨t, ht, defect, hdefect, rfl⟩) hP⟩

/-- The limit check blames the token ahead, if there are too many items, and reads nothing. -/
theorem checkLimit (count : Nat) {defect : Defect} (hdefect : defect.stops = false) :
    Local z z.Open z.Open (checkLimit count defect) := by
  refine ⟨fun last hopen _ => ?_⟩
  obtain ⟨t, r, rfl⟩ := hopen.exists_cons
  rw [checkLimit_apply, checkLimit_apply]
  split
  · exact .done (List.forall_mem_singleton.2 ⟨t, hopen.mem, defect, hdefect, rfl⟩) hopen
  · exact .done (List.forall_mem_nil _) hopen

/-- The rule for a look at the next token. -/
theorem peek {f : Token → Parser β} (hf : ∀ t, Local z (z.At t) R (f t)) :
    Local z z.Open R (peek >>= f) := by
  refine ⟨fun {zs rest} last hopen helse => ?_⟩
  obtain ⟨t, r, rfl⟩ := hopen.exists_cons
  rw [bind_of_clean (peek_apply _), bind_of_clean (peek_apply _)]
  exact (hf t).reply last ⟨hopen, r, rfl⟩ helse

/-- Going past a token that is not the semicolon leaves the scrap open. -/
theorem advance {t : Token} (ht : t.kind ≠ .mark .semicolon) :
    Local z (z.At t) z.Open advance := by
  refine ⟨fun {zs rest} last hat _ => ?_⟩
  obtain ⟨hopen, r, rfl⟩ := hat
  show Reply.Inside z last rest z.Open (.done () [] (Cursor.advance _))
    (.done () [] (Cursor.advance _))
  rw [List.cons_append, Cursor.advance_cons hopen.kind_ne_eof,
    Cursor.advance_cons hopen.kind_ne_eof]
  exact .done (List.forall_mem_nil _) (hopen.tail ht)

/-- Looking for a kind is looking at the token ahead, so that nothing behind the scrap is seen. -/
theorem check {kind : Kind} {f : Bool → Parser β} (hf : ∀ found, Local z z.Open R (f found)) :
    Local z z.Open R (check kind >>= f) := by
  refine ⟨fun {zs rest} last hopen helse => ?_⟩
  -- The token ahead is one of the scrap on both sides.
  have hsame : Cursor.check ⟨last, zs ++ rest⟩ kind = Cursor.check ⟨z.semicolon, zs⟩ kind := by
    obtain ⟨t, r, rfl⟩ := hopen.exists_cons
    rfl
  rw [bind_of_clean (check_apply kind _), bind_of_clean (check_apply kind _), hsame]
  exact (hf _).reply last hopen helse

/-- The rule for taking a token that is not the semicolon, if there is one. -/
theorem take? {kinds : List Kind} {f : Option Token → Parser β}
    (hkinds : .mark .semicolon ∉ kinds) (heof : .eof ∉ kinds)
    (hsome : ∀ t ∈ z.tokens, t.kind ∈ kinds → Local z z.Open R (f (some t)))
    (hnone : Local z z.Open R (f none)) : Local z z.Open R (take? kinds >>= f) := by
  refine ⟨fun {zs rest} last hopen helse => ?_⟩
  obtain ⟨t, r, rfl⟩ := hopen.exists_cons
  by_cases ht : t.kind ∈ kinds
  · have hinner : t.kind ≠ .mark .semicolon := fun hkind => hkinds (hkind ▸ ht)
    rw [List.cons_append, bind_of_clean (take?_of_mem heof ht),
      bind_of_clean (take?_of_mem heof ht)]
    exact (hsome t hopen.mem ht).reply last (hopen.tail hinner) helse
  · have hnot : ∀ us, ¬ StartsWith kinds (t :: us) := fun us => by simpa using ht
    rw [List.cons_append, bind_of_clean (take?_of_not (hnot _)),
      bind_of_clean (take?_of_not (hnot _))]
    exact hnone.reply last hopen helse

/-- Behind the scrap there is no `else` to take. -/
theorem noElse {f : Option Token → Parser β} (hf : Local z Read R (f none)) :
    Local z Read R (Parser.take? [.keyword .elseWord] >>= f) := by
  refine ⟨fun {zs rest} last hread helse => ?_⟩
  -- Nothing is left of the scrap, so that it is decided by what stands behind it.
  cases hread
  rw [bind_of_clean (take?_of_not not_startsWith_nil), bind_of_clean (take?_of_not helse)]
  exact hf.reply last rfl helse

/-- The rule for a token that has to be there. What is left behind it is as `Q` says. -/
theorem demand {kind : Kind} (hkind : kind ≠ .eof) {defect : Defect}
    (hdefect : defect.stops = true)
    (hQ : ∀ {t : Token} {r : List Token}, z.Open (t :: r) → t.kind = kind → Q r) :
    Local z z.Open Q (demand kind defect) := by
  refine ⟨fun {zs rest} last hopen _ => ?_⟩
  obtain ⟨t, r, rfl⟩ := hopen.exists_cons
  by_cases ht : t.kind = kind
  · rw [List.cons_append, demand_of_kind hkind ht, demand_of_kind hkind ht]
    exact .done (List.forall_mem_nil _) (hQ hopen ht)
  -- With another token ahead the parser stops, on both sides.
  · have hfault : ∀ l us, Parser.demand kind defect ⟨l, t :: us⟩
        = .fault (.ofToken t defect) [] ⟨l, t :: us⟩ := by
      intro l us
      obtain ⟨t', r', hcons, ht', -⟩ | ⟨-, heq⟩ := demand_cases hkind defect ⟨l, t :: us⟩
      · cases hcons
        exact absurd ht' ht
      · exact heq
    rw [List.cons_append, hfault, hfault]
    exact .fault ⟨t, hopen.mem, defect, hdefect, rfl⟩ (List.forall_mem_nil _) hopen

/-- A token that is not the semicolon leaves the scrap open. -/
theorem demandInner {kind : Kind} (hkind : kind ≠ .eof) (hsemicolon : kind ≠ .mark .semicolon)
    {defect : Defect} (hdefect : defect.stops = true) :
    Local z z.Open z.Open (Parser.demand kind defect) :=
  demand hkind hdefect fun hopen ht => hopen.tail (ht ▸ hsemicolon)

/-- The rule for a mark that has to be there, where it is not the semicolon. -/
theorem expect {kind : Kind} (hkind : kind ≠ .eof) (hsemicolon : kind ≠ .mark .semicolon)
    (place : String) : Local z z.Open z.Open (expect kind place) :=
  demandInner hkind hsemicolon rfl

/-- The rule for a name that has to be there. -/
theorem expectName (thing : String) : Local z z.Open z.Open (expectName thing) :=
  demandInner (by decide) (by decide) rfl

/-- A statement ends behind the semicolon. -/
theorem closing (place : String) (v : α) :
    Local z z.Open Read (Parser.expect (.mark .semicolon) place >>= fun _ => Pure.pure v) :=
  bind (demand (by decide) rfl fun hopen ht => hopen.eq_nil ht) fun _ => pure v

/-- No brace is found in a scrap, and nothing is read behind one. -/
theorem brace (place : String) {f : Token → Parser β} :
    Local z z.Open R (Parser.expect (.mark .leftBrace) place >>= f) := by
  refine bind (demand (by decide) rfl fun {t r} hopen ht => ?_) fun v => ⟨fun _ => False.elim⟩
  have hsemicolon := Scrap.kind_of_mem hopen.mem (by rw [ht]; decide)
  cases ht.symm.trans hsemicolon

end Local

/-! ### Expressions -/

mutual

/-- An expression ends in front of the semicolon at the latest, as no operator, operand or
parenthesis is one. -/
theorem expression_local : ∀ n, Local z z.Open z.Open (expression n)
  | 0 => .starve
  | n + 1 => by
    unfold expression
    refine .bind (binary_local n binaryLevels (List.Subset.refl _)) fun target => ?_
    refine .take? (by decide) (by decide) (fun equals hmem _ => ?_) (.pure _)
    refine .bind (expression_local n) fun value => ?_
    split
    · exact .pure _
    · exact .bind (.report hmem rfl) fun _ => .pure _

/-- A ladder of levels, which are among those of the language, so that no semicolon is an operator
of theirs. -/
theorem binary_local : ∀ n levels, levels ⊆ binaryLevels →
    Local z z.Open z.Open (binary n levels)
  | 0, _, _ => .starve
  | n + 1, [], _ => unary_local n
  | n + 1, level :: tighter, h => by
    obtain ⟨hlevel, htighter⟩ := List.cons_subset.1 h
    exact .bind (binary_local n tighter htighter) fun left =>
      binaryRest_local n level tighter left hlevel htighter

/-- The operators behind an operand. -/
theorem binaryRest_local : ∀ n level tighter left, level ∈ binaryLevels →
    tighter ⊆ binaryLevels → Local z z.Open z.Open (binaryRest n level tighter left)
  | 0, _, _, _, _, _ => .starve
  | n + 1, level, tighter, left, hlevel, htighter => by
    unfold binaryRest
    -- Neither a semicolon nor an end token is an operator.
    have hsemicolon : ∀ level ∈ binaryLevels, Kind.mark .semicolon ∉ level.operators := by decide
    have heof : ∀ level ∈ binaryLevels, Kind.eof ∉ level.operators := by decide
    refine .take? (hsemicolon level hlevel) (heof level hlevel) (fun op _ _ => ?_) (.pure _)
    exact .bind (binary_local n tighter htighter) fun right =>
      binaryRest_local n level tighter _ hlevel htighter

/-- Operators in front, and an operand with its argument lists. -/
theorem unary_local : ∀ n, Local z z.Open z.Open (unary n)
  | 0 => .starve
  | n + 1 => by
    unfold unary
    refine .take? (by decide) (by decide) (fun op _ _ => ?_) ?_
    · exact .bind (unary_local n) fun operand => .pure _
    · exact .bind (primary_local n) fun callee => calls_local n callee

/-- The argument lists behind a callee. -/
theorem calls_local : ∀ n callee, Local z z.Open z.Open (calls n callee)
  | 0, _ => .starve
  | n + 1, callee => by
    unfold calls
    refine .take? (by decide) (by decide) (fun opening _ _ => .check fun closes => ?_) (.pure _)
    have hlater : ∀ args, Local z z.Open z.Open
        (expect (.mark .rightParen) "after arguments" >>= fun paren =>
          calls n (.call callee paren args)) :=
      fun args => .bind (.expect (by decide) (by decide) _) fun paren => calls_local n _
    cases closes with
    | true => exact .bind (.pure _) hlater
    | false => exact .bind (arguments_local n 0) hlater

/-- Arguments. Too many of them are reported at a token of the scrap. -/
theorem arguments_local : ∀ n count, Local z z.Open z.Open (arguments n count)
  | 0, _ => .starve
  | n + 1, count => by
    unfold arguments
    refine .bind (.checkLimit _ rfl) fun _ => .bind (expression_local n) fun arg => ?_
    refine .take? (by decide) (by decide) (fun comma _ _ => ?_) (.pure _)
    exact .bind (arguments_local n (count + 1)) fun more => .pure _

/-- An operand is a token of the scrap, or begins with one. -/
theorem primary_local : ∀ n, Local z z.Open z.Open (primary n)
  | 0 => .starve
  | n + 1 => by
    unfold primary
    refine .peek fun token => ?_
    split
    case h_7 =>
      refine .of_open (.take? (by decide) (by decide) (fun opening _ _ => ?_) (.fail rfl))
      exact .bind (expression_local n) fun inner =>
        .bind (.expect (by decide) (by decide) _) fun _ => .pure _
    case h_8 => exact .of_open (.fail rfl)
    all_goals
      -- A constant or a name is not the semicolon.
      rename_i hkind
      exact .bind (.advance (by rw [hkind]; decide)) fun _ => .pure _

end

/-! ### Declarations and statements -/

/-- Parameters with the commas between them. -/
theorem parameters_local : ∀ n count, Local z z.Open z.Open (parameters n count)
  | 0, _ => .starve
  | n + 1, count => by
    unfold parameters
    refine .bind (.checkLimit _ rfl) fun _ => .bind (.expectName _) fun param => ?_
    refine .take? (by decide) (by decide) (fun comma _ _ => ?_) (.pure _)
    exact .bind (parameters_local n (count + 1)) fun more => .pure _

/-- A variable declaration reads the scrap to its end, if no error stops it. -/
theorem variableDeclaration_local (n : Nat) : Local z z.Open Read (variableDeclaration n) := by
  unfold variableDeclaration
  refine .bind (.expectName _) fun name => .take? (by decide) (by decide) (fun equals _ _ => ?_) ?_
  · exact .bind (.map _ (expression_local n)) fun init => .closing _ _
  · exact .bind (.pure _) fun init => .closing _ _

/-- So does an expression with its semicolon. -/
theorem expressionStatement_local (n : Nat) : Local z z.Open Read (expressionStatement n) :=
  .bind (expression_local n) fun _ => .closing _ _

/-- A clause that may be missing is missing if the semicolon comes first. -/
theorem expressionBefore_local (n : Nat) (kind : Kind) :
    Local z z.Open z.Open (expressionBefore n kind) := by
  refine .check fun stops => ?_
  cases stops with
  | true => exact .pure _
  | false => exact .map _ (expression_local n)

/-- A `return` reads the scrap to its end too. -/
theorem returnStatement_local (n : Nat) (word : Token) :
    Local z z.Open Read (returnStatement n word) := by
  have heq : returnStatement n word = _ := funext (returnStatement_eq n word)
  rw [heq]
  exact .bind (expressionBefore_local n _) fun result => .closing _ _

/-- A function declaration without a brace comes to nothing. -/
theorem functionDeclaration_local : ∀ n, Local z z.Open Read (functionDeclaration n)
  | 0 => .starve
  | n + 1 => by
    unfold functionDeclaration
    -- Its head holds no semicolon, and a brace is not found. So it stops in any case.
    refine .bind (.expectName _) fun name => .bind (.expect (by decide) (by decide) _) fun _ =>
      .check fun closes => ?_
    have hlater : ∀ params, Local z z.Open Read
        (expect (.mark .rightParen) "after parameters" >>= fun _ =>
          expect (.mark .leftBrace) "before function body" >>= fun _ =>
            block n >>= fun body => pure (Stmt.function name params body)) :=
      fun params => .bind (.expect (by decide) (by decide) _) fun _ => .brace _
    cases closes with
    | true => exact .bind (.pure _) hlater
    | false => exact .bind (parameters_local n 0) hlater

mutual

/-- A statement ends with the semicolon of the scrap. Which one it is shows in its first token. -/
theorem statement_local : ∀ n, Local z z.Open Read (statement n)
  | 0 => .starve
  | n + 1 => by
    rw [statement_succ]
    refine .take? (by decide) (by decide) (fun word hmem hword => ?_) (expressionStatement_local n)
    show Local z z.Open Read (opened n word)
    -- The word opens no `for` loop and no block, since neither is in a scrap.
    have hbarred : word.kind ∈ barred → False := by
      intro hkind
      have hsemi := Scrap.kind_of_mem hmem hkind
      rw [hsemi] at hword
      exact absurd hword (by decide)
    obtain ⟨hkind, -⟩ | ⟨-, heq⟩ | ⟨-, heq⟩ | ⟨-, heq⟩ | ⟨hkind, -⟩ := opened_cases n hword
    · exact (hbarred (by rw [hkind]; decide)).elim
    · rw [heq]
      exact ifStatement_local n
    · rw [heq]
      exact returnStatement_local n word
    · rw [heq]
      exact whileStatement_local n
    · exact (hbarred (by rw [hkind]; decide)).elim

/-- An `if` ends with its first branch: the semicolon belongs to it, and no `else` follows the
scrap. -/
theorem ifStatement_local : ∀ n, Local z z.Open Read (ifStatement n)
  | 0 => .starve
  | n + 1 => by
    unfold ifStatement
    exact .bind (.expect (by decide) (by decide) _) fun _ => .bind (expression_local n) fun _ =>
      .bind (.expect (by decide) (by decide) _) fun _ => .bind (statement_local n) fun _ =>
        .noElse (.pure _)

/-- A `while` loop ends with its body. -/
theorem whileStatement_local : ∀ n, Local z z.Open Read (whileStatement n)
  | 0 => .starve
  | n + 1 =>
    .bind (.expect (by decide) (by decide) _) fun _ => .bind (expression_local n) fun _ =>
      .bind (.expect (by decide) (by decide) _) fun _ => .bind (statement_local n) fun _ => .pure _

end

/-- A declaration or a statement, if no error is found in it. -/
def declared (n : Nat) : Parser Stmt :=
  take? [.keyword .funWord, .keyword .varWord] >>= fun word =>
    match word with
    | none => statement n
    | some word =>
      if word.is (.keyword .funWord) then functionDeclaration n else variableDeclaration n

/-- A declaration is one that may fail, with its error reported. -/
theorem declaration_succ (n : Nat) : declaration (n + 1) = recover (declared n) := rfl

/-- A declaration reads the scrap to its end, if no error stops it. -/
theorem declared_local (n : Nat) : Local z z.Open Read (declared n) := by
  refine .take? (by decide) (by decide) (fun word _ _ => ?_) (statement_local n)
  dsimp only
  split
  · exact functionDeclaration_local n
  · exact variableDeclaration_local n

end Parser

/-! ### What becomes of a scrap -/

/-- The value, if there is one. -/
def Reply.value? {α : Type} : Reply α → Option α
  | .done value _ _ => some value
  | _ => none

/-- All errors, the one that stopped the parser behind the others. -/
def Reply.errors {α : Type} : Reply α → List StaticError
  | .done _ reported _ => reported
  | .fault error reported _ => reported ++ [error]
  | .starved => []

namespace Scrap

variable {α : Type} {z : Scrap}

/-- An error that is blamed on the scrap names one of its tokens. -/
theorem Blames.located {stops : Bool} {e : StaticError} (h : z.Blames stops e) :
    ∃ t ∈ z.tokens, e = .ofToken t e.defect := by
  obtain ⟨t, ht, defect, -, rfl⟩ := h
  exact ⟨t, ht, rfl⟩

/-- Whether an error stops a parser is told by its defect. -/
theorem Blames.stops_eq {stops : Bool} {e : StaticError} (h : z.Blames stops e) :
    e.defect.stops = stops := by
  obtain ⟨t, -, defect, hdefect, rfl⟩ := h
  exact hdefect

/-- Errors that were only reported stop no parser. -/
theorem countP_reported {errors : List StaticError} (h : ∀ e ∈ errors, z.Blames false e) :
    errors.countP (·.defect.stops) = 0 := by
  rw [List.countP_eq_zero]
  intro e he
  simp [(h e he).stops_eq]

/-- There is a value, or else one error that stopped the parser. -/
theorem value_or_error {last : Token} {rest : List Token} {Q : List Token → Prop} {r r' : Reply α}
    (h : r.Inside z last rest Q r') (hr : r ≠ .starved) :
    r.value?.toList.length + r.errors.countP (·.defect.stops) = 1 := by
  cases h with
  | done hes _ => simpa [Reply.value?, Reply.errors] using countP_reported hes
  | fault he hes _ =>
      simp [Reply.value?, Reply.errors, List.countP_append, countP_reported hes, he.stops_eq]
  | starved => exact absurd rfl hr

/-- All errors are blamed on tokens of the scrap. -/
theorem errors_located {last : Token} {rest : List Token} {Q : List Token → Prop} {r r' : Reply α}
    (h : r.Inside z last rest Q r') : ∀ e ∈ r.errors, ∃ t ∈ z.tokens, e = .ofToken t e.defect := by
  cases h with
  | done hes _ => exact fun e he => (hes e he).located
  | fault he hes _ =>
      refine List.forall_mem_append.2 ⟨fun e he => (hes e he).located, ?_⟩
      exact List.forall_mem_singleton.2 he.located
  | starved => exact List.forall_mem_nil _

/-- Parsing goes on behind the semicolon, with a value or without one. -/
theorem recover_eq (hlone : ∀ t ∈ z.tokens.tail, t.kind.startsStatement = false) {p : Parser α}
    (hp : p.Local z z.Open Read) (halone : p ⟨z.semicolon, z.tokens⟩ ≠ .starved) (last : Token)
    {rest : List Token} (helse : ¬ StartsWith [.keyword .elseWord] rest) :
    Parser.recover p ⟨last, z.tokens ++ rest⟩ = .done (p ⟨z.semicolon, z.tokens⟩).value?
      (p ⟨z.semicolon, z.tokens⟩).errors ⟨last, rest⟩ := by
  unfold Parser.recover
  have hreply := hp.reply last z.open_tokens helse
  generalize p ⟨z.semicolon, z.tokens⟩ = r, p ⟨last, z.tokens ++ rest⟩ = r' at hreply halone ⊢
  cases hreply with
  | done hes hread =>
      cases hread
      rfl
  | @fault e es zs he hes hopen =>
      show Reply.done none (es ++ [e]) (Cursor.resume ⟨last, zs ++ rest⟩) = _
      rw [resume_eq hlone hopen]
      rfl
  | starved => exact absurd rfl halone

end Scrap

end Scriptlet
