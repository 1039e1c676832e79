import Scriptlet.Proofs.Parser.Recovery
import Scriptlet.Proofs.Parser.Unended

/-!
# `Scriptlet.Proofs.Parser.MissingSemicolon`: a semicolon left out

Complete declarations end in a semicolon, and it is left out in front of a word that opens a
statement. The error is found at this word, and recovery skips at least the token at which an error
was found. So the word is lost, and parsing goes on behind the next semicolon or at the next such
word: inside of the statement that the first word opens.

* `Parser.Faults`: with steps enough, a parser stops with an error and has reported none before.
* `Grammar.Statement.faults`: a statement that lacks its last semicolon, however deep it is in
  loops and branches.
* `Grammar.Declarations.gives_dropLast`: such a statement behind others. It is the only one of them
  that is lost.
* `missing_semicolon`: what this comes to for whole lists.
* `missing_semicolon_swallows_word`: why a missing semicolon may cost more than one statement, and
  lead to more than one error.
-/

set_option autoImplicit false

namespace Scriptlet

open Grammar

namespace Parser

variable {α β : Type}

/-! ### Parsers that stop -/

/-- With steps enough, the parser stops with this error, the first one that it finds. -/
def Faults (p : Nat → Parser α) (c : Cursor) (error : StaticError) (c' : Cursor) : Prop :=
  ∀ᶠ n in Filter.atTop, p n c = .fault error [] c'

section Rules

variable {c c₁ c' : Cursor} {e : StaticError}

/-- A parser that stops with one step less than it is given stops. -/
theorem Faults.succ {p : Nat → Parser α} (h : Faults (fun n => p (n + 1)) c e c') :
    Faults p c e c' := by
  unfold Faults
  rw [← Filter.map_add_atTop_eq_nat 1]
  exact h

/-- Stopping is decided by what the parser comes to at the cursor, not by how it is written. -/
theorem Faults.of_eq {p q : Nat → Parser α} (h : ∀ n, p n c = q n c) (hq : Faults q c e c') :
    Faults p c e c' := by
  filter_upwards [hq] with n hn
  rw [h, hn]

/-- What would follow is not reached. -/
theorem Faults.bind {p : Nat → Parser α} {f : Nat → α → Parser β} (h : Faults p c e c') :
    Faults (fun n => p n >>= f n) c e c' := by
  filter_upwards [h] with n hn
  show Parser.bind (p n) (f n) c = _
  unfold Parser.bind
  rw [hn]

/-- The rule for a clean parser and one that stops behind it. -/
theorem Yields.faults {p : Nat → Parser α} {f : Nat → α → Parser β} {v : α}
    (hp : Yields p c v c₁) (hf : Faults (fun n => f n v) c₁ e c') :
    Faults (fun n => p n >>= f n) c e c' := by
  filter_upwards [hp, hf] with n hp hf
  rw [bind_of_clean hp]
  exact hf

/-- A value would have been changed here, but there is none. -/
theorem Faults.map {p : Nat → Parser α} {g : α → β} (h : Faults p c e c') :
    Faults (fun n => g <$> p n) c e c' :=
  h.bind

/-- A token of the kinds that are looked for is read, and the parser behind it stops. -/
theorem Faults.take {kinds : List Kind} (heof : .eof ∉ kinds) {f : Nat → Option Token → Parser β}
    {last t : Token} {rest : List Token} (ht : t.kind ∈ kinds)
    (h : Faults (fun n => f n (some t)) ⟨last, rest⟩ e c') :
    Faults (fun n => take? kinds >>= f n) ⟨last, t :: rest⟩ e c' :=
  Yields.faults (.of_forall fun _ => take?_of_mem heof ht) h

/-- No such token is there, so nothing is read, and the parser behind it stops. -/
theorem Faults.skip {kinds : List Kind} {f : Nat → Option Token → Parser β}
    (hnot : ¬ StartsWith kinds c.rest) (h : Faults (fun n => f n none) c e c') :
    Faults (fun n => take? kinds >>= f n) c e c' :=
  Yields.faults (.of_forall fun _ => take?_of_not hnot) h

/-- Looking at the next token reads nothing, so stopping is left to what depends on the answer. -/
theorem Faults.check {kind : Kind} {f : Nat → Bool → Parser β}
    (h : Faults (fun n => f n (c.check kind)) c e c') :
    Faults (fun n => Parser.check kind >>= f n) c e c' :=
  Yields.faults (.of_forall fun _ => check_apply kind c) h

/-- A token that has to be there is there, and the parser behind it stops. -/
theorem Faults.demand {kind : Kind} (hkind : kind ≠ .eof) {defect : Defect}
    {f : Nat → Token → Parser β} {last t : Token} {rest : List Token} (ht : t.kind = kind)
    (h : Faults (fun n => f n t) ⟨last, rest⟩ e c') :
    Faults (fun n => Parser.demand kind defect >>= f n) ⟨last, t :: rest⟩ e c' :=
  Yields.faults (.of_forall fun _ => demand_of_kind hkind ht) h

/-- A token that has to be there and is not. -/
theorem faults_demand {kind : Kind} (hkind : kind ≠ .eof) {defect : Defect}
    {f : Nat → Token → Parser β} {last t : Token} {rest : List Token} (ht : t.kind ≠ kind) :
    Faults (fun n => Parser.demand kind defect >>= f n) ⟨last, t :: rest⟩ (.ofToken t defect)
      ⟨last, t :: rest⟩ := by
  refine .bind (.of_forall fun _ => ?_)
  obtain ⟨t', rest', hrest, ht', -⟩ | ⟨-, heq⟩ := demand_cases hkind defect ⟨last, t :: rest⟩
  · cases hrest
    exact absurd ht' ht
  · exact heq

/-- An error that stops a declaration is reported, and parsing goes on elsewhere. -/
theorem Faults.recover {p : Nat → Parser α} (h : Faults p c e c') :
    Gives (fun n => Parser.recover (p n)) c none [e] c'.resume := by
  filter_upwards [h] with n hn
  simp only [Parser.recover, hn, List.nil_append]

/-- A statement that its first token opens. -/
theorem Faults.opened {word last : Token} {rest : List Token}
    (hword : word.kind ∈ statementOpeners)
    (h : Faults (fun n => opened n word) ⟨last, rest⟩ e c') :
    Faults statement ⟨last, word :: rest⟩ e c' :=
  .succ (.take (by decide) hword h)

/-- A condition in parentheses, and an error behind it. -/
theorem Faults.condition {before behind : String} {f : Nat → Expr → Parser β}
    {opening closing last : Token} {cs rest : List Token} {condition : Expr}
    (hopening : opening.kind = .mark .leftParen) (hc : Derives .assignment cs condition)
    (hclosing : closing.kind = .mark .rightParen)
    (h : Faults (fun n => f n condition) ⟨last, rest⟩ e c') :
    Faults (fun n => expect (.mark .leftParen) before >>= fun _ => expression n >>= fun e =>
      expect (.mark .rightParen) behind >>= fun _ => f n e)
      ⟨last, opening :: (cs ++ closing :: rest)⟩ e c' :=
  .demand (by decide) hopening
    ((hc.complete (by decide) hclosing).faults (.demand (by decide) hclosing h))

/-- An error in a statement stops what the tokens in front make of it. -/
theorem Faults.lead {s whole : Stmt} {takes : Bool} {hs rest : List Token} {last : Token}
    (hlead : Lead s takes hs whole) (h : Faults statement ⟨last, rest⟩ e c') :
    Faults statement ⟨last, hs ++ rest⟩ e c' := by
  -- What stands in front is read up to the statement, by the parser for its first word.
  cases hlead with
  | loop hword hopening hc hclosing =>
      simp only [List.cons_append, List.append_assoc, List.nil_append]
      refine .opened (by rw [hword]; decide) ?_
      simp only [Parser.opened, hword]
      exact .succ (.condition hopening hc hclosing h.bind)
  | branch hword hopening hc hclosing =>
      simp only [List.cons_append, List.append_assoc, List.nil_append]
      refine .opened (by rw [hword]; decide) ?_
      simp only [Parser.opened, hword]
      exact .succ (.condition hopening hc hclosing h.bind)
  | otherwise hword hopening hc hclosing hyes hotherwise =>
      simp only [List.cons_append, List.append_assoc, List.nil_append]
      refine .opened (by rw [hword]; decide) ?_
      simp only [Parser.opened, hword]
      refine .succ (.condition hopening hc hclosing (((hyes _).complete last).faults ?_))
      exact .take (by decide) (by simp [hotherwise]) h.bind
  | forLoop hword hopening hinit hc hsemicolon hi hclosing =>
      simp only [List.cons_append, List.append_assoc, List.nil_append]
      refine .opened (by rw [hword]; decide) ?_
      simp only [Parser.opened, hword]
      refine .succ (.demand (by decide) hopening (hinit.complete.faults ?_))
      refine (hc.complete (by decide) hsemicolon).faults (.demand (by decide) hsemicolon ?_)
      refine (hi.complete (by decide) hclosing).faults (.demand (by decide) hclosing ?_)
      exact h.bind

end Rules

/-! ### Words that open statements -/

/-- A word that opens a statement is of none of the other kinds. -/
theorem notMem_of_startsStatement {t : Token} {kinds : List Kind}
    (ht : t.kind.startsStatement = true) (hkinds : ∀ kind ∈ kinds, kind.startsStatement = false) :
    t.kind ∉ kinds := by
  intro hmem
  rw [hkinds _ hmem] at ht
  cases ht

/-- No expression is found at a word that opens a statement. -/
theorem expression_faults {last t : Token} {more : List Token}
    (ht : t.kind.startsStatement = true) :
    Faults expression ⟨last, t :: more⟩ (.ofToken t .expectedExpression) ⟨last, t :: more⟩ := by
  have hoperand : t.kind ∉ Rung.operandOpeners := notMem_of_startsStatement ht (by decide)
  have hsign : ¬ StartsWith [.mark .bang, .mark .minus] (t :: more) := by
    rw [startsWith_cons]
    exact notMem_of_startsStatement ht (by decide)
  have hprimary : Faults primary ⟨last, t :: more⟩ (.ofToken t .expectedExpression)
      ⟨last, t :: more⟩ := .succ (.of_forall fun n => primary_fault n hoperand)
  -- Each level first looks for an operand of the next one.
  have hlevels : ∀ levels, Faults (fun n => binary n levels) ⟨last, t :: more⟩
      (.ofToken t .expectedExpression) ⟨last, t :: more⟩ := by
    intro levels
    induction levels with
    | nil => exact .succ (.succ (.skip hsign hprimary.bind))
    | cons level tighter ih => exact .succ ih.bind
  exact .succ (hlevels binaryLevels).bind

end Parser

open Scriptlet.Parser

/-- What is found to be missing where a semicolon was left out: the semicolon, or a value that might
stand in front of it. -/
def Defect.MissesSemicolon (defect : Defect) : Prop :=
  defect = .expectedExpression ∨ ∃ place, defect = .expectedToken (.mark .semicolon) place

/-- The last token of two rows is that of the second one. -/
theorem exists_front (hs : List Token) {ts us : List Token} {semicolon : Token} (hts : ts ≠ [])
    (h : hs ++ ts = us ++ [semicolon]) : ∃ vs, ts = vs ++ [semicolon] ∧ us = hs ++ vs := by
  obtain ⟨vs, t, rfl⟩ := (List.eq_nil_or_concat' ts).resolve_left hts
  rw [← List.append_assoc] at h
  obtain ⟨hfront, hlast⟩ := List.append_inj' h rfl
  exact ⟨vs, by rw [hlast], hfront.symm⟩

/-- Behind the tokens `us` the parser stops at the token `t`, since a semicolon is missing. -/
def Misses (p : Nat → Parser Stmt) (us : List Token) (t : Token) : Prop :=
  ∀ (last : Token) (more : List Token), ∃ defect : Defect, defect.MissesSemicolon ∧
    Faults p ⟨last, us ++ t :: more⟩ (.ofToken t defect) ⟨last, t :: more⟩

namespace Grammar

variable {t : Token} {ts us rest : List Token} {semicolon : Token}

/-- A word stands where a semicolon has to. -/
theorem faults_semicolon {β : Type} (ht : t.kind.startsStatement = true) {place : String}
    {f : Nat → Token → Parser β} {last : Token} {more : List Token} :
    Faults (fun n => expect (.mark .semicolon) place >>= f n) ⟨last, t :: more⟩
      (.ofToken t (.expectedToken (.mark .semicolon) place)) ⟨last, t :: more⟩ := by
  have hsemicolon : t.kind ∉ [.mark .semicolon] := notMem_of_startsStatement ht (by decide)
  exact faults_demand (by decide) (by simpa using hsemicolon)

/-- No word goes on with an expression. -/
theorem Derives.before {e : Expr} (h : Derives .assignment ts e)
    (ht : t.kind.startsStatement = true) {last : Token} {more : List Token} :
    Yields expression ⟨last, ts ++ t :: more⟩ e ⟨last, t :: more⟩ :=
  h.complete (notMem_of_startsStatement ht (by decide)) rfl

/-- No statement is spelled by no tokens. -/
theorem Statement.ne_nil {s : Stmt} (h : Statement ts rest s) : ts ≠ [] := by
  rintro rfl
  exact not_startsWith_nil h.starts

/-- What stands behind `var` has a name at least. -/
theorem Binding.ne_nil {s : Stmt} (h : Binding ts s) : ts ≠ [] := by
  cases h <;> simp

/-- Leaving out the last token does not change how a row starts, if that token is none of these
kinds. -/
theorem startsWith_front {kinds : List Kind} (h : StartsWith kinds (us ++ [semicolon]))
    (hsemicolon : semicolon.kind ∉ kinds) : StartsWith kinds us := by
  cases us with
  | nil => exact absurd (by simpa using h) hsemicolon
  | cons u us => simpa using h

/-- What closes a block is no semicolon. -/
theorem ne_of_brace (hs : List Token) {right : Token} (hright : right.kind = .mark .rightBrace)
    (hsemicolon : semicolon.kind = .mark .semicolon) : hs ++ [right] ≠ us ++ [semicolon] := by
  intro h
  obtain ⟨-, hlast⟩ := List.append_inj' h rfl
  cases hlast
  cases hright.symm.trans hsemicolon

/-! ### Statements without their last semicolon -/

/-- Behind `var` the semicolon is missing behind the name or behind the value. -/
theorem Binding.faults {s : Stmt} (h : Binding ts s) (hts : ts = us ++ [semicolon])
    (ht : t.kind.startsStatement = true) : Misses variableDeclaration us t := by
  intro last more
  refine ⟨_, .inr ⟨"after variable declaration", rfl⟩, ?_⟩
  cases h with
  | @bare name _ hname =>
      obtain rfl : [name] = us := List.append_inj_left' hts rfl
      -- The word is no equals sign, so the parser takes it that there is no value.
      have hequal : t.kind ∉ [.mark .equal] := notMem_of_startsStatement ht (by decide)
      refine .demand (by decide) hname (.skip (by simpa using hequal) ?_)
      exact Yields.pure.faults (faults_semicolon ht)
  | @valued name equals _ es e hname hequals hvalue =>
      obtain rfl : name :: equals :: es = us := List.append_inj_left' hts rfl
      refine .demand (by decide) hname (.take (by decide) (by simp [hequals]) ?_)
      exact (Yields.map (hvalue.before ht)).faults (faults_semicolon ht)

/-- Behind `return` the word is met where a value is looked for, or behind the value. -/
theorem Clause.faults {result : Option Expr} (h : Clause ts result)
    (ht : t.kind.startsStatement = true) (word : Token) :
    Misses (fun n => returnStatement n word) ts t := by
  intro last more
  have hsemicolon : t.kind ∉ [.mark .semicolon] := notMem_of_startsStatement ht (by decide)
  cases h with
  | absent =>
      refine ⟨_, .inl rfl, .of_eq (fun n => returnStatement_eq n _ _) (.bind ?_)⟩
      refine .check ?_
      rw [(Cursor.check_eq_false (by decide)).2 (by simpa using hsemicolon)]
      exact (expression_faults ht).map
  | @present _ e he =>
      refine ⟨_, .inr ⟨"after return value", rfl⟩, .of_eq (fun n => returnStatement_eq n _ _) ?_⟩
      have hfirst : ¬ StartsWith [.mark .semicolon] (ts ++ t :: more) :=
        -- Behind `return` the parser asks first whether the semicolon follows at once.
        (he.starts.append _).disjoint (by decide)
      have hvalue : Yields (fun n => expressionBefore n (.mark .semicolon))
          ⟨last, ts ++ t :: more⟩ (some e) ⟨last, t :: more⟩ := by
        refine .check ?_
        rw [(Cursor.check_eq_false (by decide)).2 hfirst]
        exact .map (he.before ht)
      exact hvalue.faults (faults_semicolon ht)

/-- What stands in front of a statement stays there. -/
theorem Statement.misses {s whole : Stmt} {takes : Bool} {hs : List Token}
    (hbody : Statement ts rest s) (hlead : Lead s takes hs whole) (h : hs ++ ts = us ++ [semicolon])
    (hmisses : ∀ {vs}, ts = vs ++ [semicolon] → Misses statement vs t) : Misses statement us t := by
  intro last more
  obtain ⟨vs, hvs, rfl⟩ := exists_front hs hbody.ne_nil h
  obtain ⟨defect, hdefect, hfaults⟩ := hmisses hvs last more
  rw [List.append_assoc]
  exact ⟨defect, hdefect, .lead hlead hfaults⟩

/-- A statement in front of a word, without its last semicolon. -/
theorem Statement.faults (ht : t.kind.startsStatement = true)
    (hsemicolon : semicolon.kind = .mark .semicolon) : ∀ {ts rest us : List Token} {s : Stmt},
    Statement ts rest s → ts = us ++ [semicolon] → Misses statement us t
  | _, _, _, _, .expression he _, hts => by
    intro last more
    obtain rfl := List.append_inj_left' hts rfl
    have hstarts := he.starts.append (t :: more)
    refine ⟨_, .inr ⟨"after expression", rfl⟩, .succ (.skip (hstarts.disjoint (by decide)) ?_)⟩
    exact (he.before ht).faults (faults_semicolon ht)
  | _, _, _, _, @Statement.block left right bs _ _ hleft _ hright, hts =>
    absurd hts (ne_of_brace (left :: bs) hright hsemicolon)
  -- The last statement of a branch or a loop is the one that lacks its semicolon.
  | _, _, _, _, .ifThen hword hopening hc hclosing hyes _, hts =>
    hyes.misses (.branch hword hopening hc hclosing) (by simpa using hts)
      fun hvs => hyes.faults ht hsemicolon hvs
  | _, _, _, _, .ifElse hword hopening hc hclosing hyes hotherwise hno, hts =>
    have hbefore (rest : List Token) : Statement _ (_ :: rest) _ :=
      hyes.before fun _ => by simp [hotherwise]
    hno.misses (.otherwise hword hopening hc hclosing hbefore hotherwise) (by simpa using hts)
      fun hvs => hno.faults ht hsemicolon hvs
  | _, _, _, _, .loop hword hopening hc hclosing hbody, hts =>
    hbody.misses (.loop hword hopening hc hclosing) (by simpa using hts)
      fun hvs => hbody.faults ht hsemicolon hvs
  | _, _, _, _, .forLoop hword hopening hinit hc hstop hi hclosing hbody, hts =>
    hbody.misses (.forLoop hword hopening hinit hc hstop hi hclosing) (by simpa using hts)
      fun hvs => hbody.faults ht hsemicolon hvs
  | _, _, _, _, @Statement.giveBack word _ ts _ _ hword hresult _, hts => by
    intro last more
    obtain rfl : word :: ts = _ := List.append_inj_left' hts rfl
    obtain ⟨defect, hdefect, hfaults⟩ := hresult.faults ht word last more
    refine ⟨defect, hdefect, .opened (by rw [hword]; decide) ?_⟩
    simp only [opened, hword]
    exact hfaults

/-- A declaration in front of a word, without its last semicolon. The error is reported, and parsing
goes on behind the word. -/
theorem Declaration.gives_none {s : Stmt} (h : Declaration (us ++ [semicolon]) rest s)
    (ht : t.kind.startsStatement = true) (hsemicolon : semicolon.kind = .mark .semicolon)
    (last : Token) (more : List Token) : ∃ defect : Defect, defect.MissesSemicolon ∧
      Gives declaration ⟨last, us ++ t :: more⟩ none [.ofToken t defect]
        ⟨last, Cursor.skipStatement t more⟩ := by
  have hresume : Cursor.resume ⟨last, t :: more⟩ = ⟨last, Cursor.skipStatement t more⟩ := by
    have heof : t.kind ∉ [.eof] := notMem_of_startsStatement ht (by decide)
    simp only [Cursor.resume, Token.is, List.mem_singleton.not.1 heof, decide_false]
    rfl
  rw [← hresume]
  generalize hts : us ++ [semicolon] = ts at h
  cases h with
  | @function word name opening closing left right _ ps bs _ _ _ _ _ _ _ _ _ _ _ hright =>
      let front := word :: name :: opening :: (ps ++ closing :: left :: bs)
      have hend : front ++ [right] = us ++ [semicolon] := by simp [front, hts]
      exact absurd hend (ne_of_brace front hright hsemicolon)
  | @binding word _ _ _ hword hbinding =>
      obtain ⟨vs, hvs, rfl⟩ := exists_front [word] hbinding.ne_nil hts.symm
      obtain ⟨defect, hdefect, hfaults⟩ := hbinding.faults hvs ht last more
      refine ⟨defect, hdefect, .succ (Faults.recover (.take (by decide) (by simp [hword]) ?_))⟩
      simp only [Token.is, hword]
      exact hfaults
  | statement hs =>
      obtain ⟨defect, hdefect, hfaults⟩ := hs.faults ht hsemicolon hts.symm last more
      have hstarts : StartsWith (statementOpeners ++ Rung.assignment.openers) us := by
        refine startsWith_front (hts ▸ hs.starts) ?_
        rw [hsemicolon]
        decide
      have hopens := hstarts.append (t :: more)
      exact ⟨defect, hdefect,
        .succ (Faults.recover (.skip (hopens.disjoint (by decide)) hfaults))⟩

/-- The last one of some declarations. -/
theorem Declarations.exists_last : ∀ {ts rest : List Token} {ss : List Stmt},
    Declarations ts rest ss → ss ≠ [] → ∃ us vs ps s, ts = us ++ vs ∧ ss = ps ++ [s] ∧
      Declarations us (vs ++ rest) ps ∧ Declaration vs rest s
  | _, _, _, .nil, hss => absurd rfl hss
  | _, _, _, @Declarations.cons ts _ _ s [] hfirst hmore, _ => by
    cases hmore
    exact ⟨[], ts, [], s, by simp, rfl, .nil, hfirst⟩
  | _, _, _, @Declarations.cons ts _ _ s (_ :: _) hfirst hmore, _ => by
    obtain ⟨us, vs, ps, last, rfl, hss, hfront, hlast⟩ := hmore.exists_last (List.cons_ne_nil _ _)
    refine ⟨ts ++ us, vs, s :: ps, last, by simp, by simp [hss], .cons ?_ hfront, hlast⟩
    rwa [← List.append_assoc]

/-- Declarations in front of a word, without their last semicolon. All but the last one are read,
and parsing goes on behind the word. -/
theorem Declarations.gives_dropLast {ss : List Stmt} (h : Declarations (us ++ [semicolon]) rest ss)
    (ht : t.kind.startsStatement = true) (hsemicolon : semicolon.kind = .mark .semicolon)
    (last : Token) (more : List Token) : ∃ defect : Defect, defect.MissesSemicolon ∧
      ∀ {inBlock q late c},
        Gives (fun n => declarations n inBlock) ⟨last, Cursor.skipStatement t more⟩ q late c →
        Gives (fun n => declarations n inBlock) ⟨last, us ++ t :: more⟩ (ss.dropLast ++ q)
          (.ofToken t defect :: late) c := by
  have hss : ss ≠ [] := by
    rintro rfl
    generalize hts : us ++ [semicolon] = ts at h
    cases h
    simp at hts
  obtain ⟨front, vs, ps, s, hts, rfl, hfront, hlast⟩ := h.exists_last hss
  have hvs : vs ≠ [] := by
    rintro rfl
    exact not_startsWith_nil hlast.starts
  obtain ⟨us', rfl, rfl⟩ := exists_front front hvs hts.symm
  obtain ⟨defect, hdefect, hgives⟩ := hlast.gives_none ht hsemicolon last more
  refine ⟨defect, hdefect, fun {inBlock q late c} hlater => ?_⟩
  have hstarts : StartsWith declarationOpeners us' := by
    refine startsWith_front hlast.starts ?_
    rw [hsemicolon]
    decide
  have hopens := hstarts.append (t :: more)
  rw [List.dropLast_concat, List.append_assoc]
  have hgo : GoesOn inBlock ⟨last, us' ++ t :: more⟩ :=
    goesOn_of_starts hopens (by decide) (by decide)
  have hone := declarations_gives hgo hgives hlater
  -- No `else` comes to stand behind the declarations in front.
  exact Declarations.gives hone
    (hfront.before fun helse => absurd helse (hopens.disjoint (by decide)))

end Grammar

/-- Skipping goes no further than the end token. -/
theorem Cursor.skipStatement_concat {eof : Token} (heof : eof.kind = .eof) :
    ∀ (ts : List Token) (previous : Token),
      ∃ us, skipStatement previous (ts ++ [eof]) = us ++ [eof]
  | [], previous => ⟨[], by simp [skipStatement, Token.is, heof]⟩
  | t :: ts, previous => by
    rw [List.cons_append]
    unfold skipStatement
    split
    · exact ⟨t :: ts, rfl⟩
    · exact skipStatement_concat heof ts t

/-- Nothing is skipped behind a semicolon. -/
theorem Cursor.skipStatement_semicolon {semicolon : Token}
    (h : semicolon.kind = .mark .semicolon) (ts : List Token) :
    skipStatement semicolon ts = ts := by
  cases ts <;> simp [skipStatement, Token.is, h]

/-- Skipping goes past tokens that are neither semicolons nor words. -/
theorem Cursor.skipStatement_append {stop : Token} {later : List Token} (hstop : stop.kind ≠ .eof) :
    ∀ {inner : List Token} {previous : Token}, previous.kind ≠ .mark .semicolon →
      (∀ t ∈ inner, t.kind ∉ [.mark .semicolon, .eof] ∧ t.kind.startsStatement = false) →
      skipStatement previous (inner ++ stop :: later) =
        if stop.kind.startsStatement then stop :: later else skipStatement stop later
  | [], previous, hprevious, _ => by simp [skipStatement, Token.is, hprevious, hstop]
  | t :: inner, previous, hprevious, hinner => by
    obtain ⟨⟨ht, hword⟩, hinner⟩ := List.forall_mem_cons.1 hinner
    simp only [List.mem_cons, List.not_mem_nil, or_false, not_or] at ht
    rw [← skipStatement_append hstop ht.1 hinner, List.cons_append, skipStatement]
    simp [Token.is, hprevious, ht.2, hword]

/-! ### Whole lists -/

/-- **A word in the place of a missing semicolon is lost.** Let `a` with a semicolon be parsed
without errors, and let a word that opens a statement stand in the place of this semicolon, in front
of any tokens `b`. Then the last statement of `a` is lost, the other ones are kept, and an error is
reported at the word. Skipping starts behind the word, so that parsing goes on as if a list started
where it ends. If no other word comes first, this is behind the next semicolon, and else it is at
the next word. Where that is in `b` depends on `b` alone. The statement that the lost word opens may
end there, as in `var x = 1;`, and then only this one is lost with it. There may also be some of it
left, as in `fun f() \x7b x; \x7d`, where the semicolon stands between braces. -/
theorem missing_semicolon {a b : List Token} {semicolon first eof : Token}
    (hsemicolon : semicolon.kind = .mark .semicolon) (heof : eof.kind = .eof)
    (ha : ∀ t ∈ a, t.kind ≠ .eof) (hclean : (parse (a ++ [semicolon, eof])).errors = [])
    (hfirst : first.kind.startsStatement = true) :
    let kept := (parse (a ++ [semicolon, eof])).program.dropLast
    let left := Cursor.skipStatement first (b ++ [eof])
    (∃ defect : Defect, defect.MissesSemicolon ∧ parse (a ++ first :: (b ++ [eof])) =
      ⟨kept ++ (parse left).program, .ofToken first defect :: (parse left).errors⟩) ∧
    ∀ inner stop g, b = inner ++ stop :: g →
      (∀ t ∈ inner, t.kind ∉ [.mark .semicolon, .eof] ∧ t.kind.startsStatement = false) →
      (stop.kind = .mark .semicolon → left = g ++ [eof]) ∧
      (stop.kind.startsStatement = true → left = stop :: (g ++ [eof])) := by
  intro kept left
  have hclean' : parse ((a ++ [semicolon]) ++ [eof])
      = ⟨(parse (a ++ [semicolon, eof])).program, []⟩ := by
    rw [← hclean, List.append_assoc]
    rfl
  have hinner : ∀ t ∈ a ++ [semicolon], t.kind ≠ .eof := by
    simpa [or_imp, forall_and, hsemicolon] using ha
  have hspelled := (program_of_parse heof hinner hclean').declarations
  obtain ⟨front, hfront⟩ := Cursor.skipStatement_concat heof b first
  obtain ⟨defect, hdefect, hgives⟩ := hspelled.gives_dropLast hfirst hsemicolon eof (b ++ [eof])
  have hlast : left.getLast? = some eof := by simp [left, hfront]
  obtain ⟨c, hleft⟩ := gives_parse hlast
  have hlast' : (a ++ first :: (b ++ [eof])).getLast? = some eof := by
    rw [← List.cons_append, ← List.append_assoc, List.getLast?_concat]
  refine ⟨⟨defect, hdefect, parse_eq_of_gives hlast' (hgives hleft)⟩, ?_⟩
  rintro inner stop g rfl hskipped
  have hword : first.kind ∉ [.mark .semicolon] := notMem_of_startsStatement hfirst (by decide)
  have hreach (hstop : stop.kind ≠ .eof) : left =
      if stop.kind.startsStatement then stop :: (g ++ [eof])
      else Cursor.skipStatement stop (g ++ [eof]) := by
    rw [← Cursor.skipStatement_append hstop (List.mem_singleton.not.1 hword) hskipped]
    simp [left]
  constructor
  case left =>
    intro hstop
    rw [hreach (by simp [hstop]), Cursor.skipStatement_semicolon hstop, hstop]
    rfl
  case right =>
    intro hstop
    have hne : stop.kind ∉ [.eof] := notMem_of_startsStatement hstop (by decide)
    rw [hreach (List.mem_singleton.not.1 hne), if_pos hstop]

/-- In `if (a) b var c = 1; while (c) d; e;` the missing semicolon costs two statements, the branch
and the declaration. What stands behind them is kept. -/
theorem missing_semicolon_branch :
    let word (kind : Kind) (name : String) : Token := ⟨kind, ⟨0, 0, name⟩, none, 1⟩
    let name := word .identifier
    let semicolon := word (.mark .semicolon) ";"
    let opening := word (.mark .leftParen) "("
    let closing := word (.mark .rightParen) ")"
    let eof := word .eof ""
    let first := word (.keyword .varWord) "var"
    let a := [word (.keyword .ifWord) "if", opening, name "a", closing, name "b"]
    let inner := [name "c", word (.mark .equal) "=", word .number "1"]
    let g := [word (.keyword .whileWord) "while", opening, name "c", closing, name "d", semicolon,
      name "e", semicolon]
    (∃ defect : Defect, defect.MissesSemicolon ∧
      parse (a ++ first :: (inner ++ semicolon :: g ++ [eof])) =
        ⟨(parse (g ++ [eof])).program, [.ofToken first defect]⟩) ∧
      (parse (g ++ [eof])).program.length = 2 := by
  intro word name semicolon opening closing eof first a inner g
  have hsemicolon : semicolon.kind = .mark .semicolon := rfl
  have heof : eof.kind = .eof := rfl
  have ha : ∀ t ∈ a, t.kind ≠ .eof := by decide
  have hfirst : first.kind.startsStatement = true := rfl
  have hwhole : (parse (a ++ [semicolon, eof])).errors = [] := by decide +kernel
  obtain ⟨⟨defect, hdefect, hparse⟩, hleft⟩ :=
    @missing_semicolon a (inner ++ semicolon :: g) _ _ _ hsemicolon heof ha hwhole hfirst
  have hresumed := (hleft inner semicolon g rfl (by decide)).1 rfl
  have hkept : (parse (a ++ [semicolon, eof])).program.dropLast = [] := by
    have hone : (parse (a ++ [semicolon, eof])).program.length = 1 := by decide +kernel
    exact List.eq_nil_of_length_eq_zero (by simp [hone])
  have hclean : (parse (g ++ [eof])).errors = [] := by decide +kernel
  refine ⟨⟨defect, hdefect, ?_⟩, by decide +kernel⟩
  rw [hparse, hkept, hresumed, hclean, List.nil_append]

/-- In `var a = 1 fun f() \x7b return 1; \x7d` parsing goes on at `return`: the body of the
function is left over, and its brace is a second error. -/
theorem missing_semicolon_swallows_word :
    ¬ ∀ (a b : List Token) (semicolon first eof : Token),
      semicolon.kind = .mark .semicolon → eof.kind = .eof → (∀ t ∈ a, t.kind ≠ .eof) →
      (∀ t ∈ b, t.kind ≠ .eof) → (parse (a ++ [semicolon, eof])).errors = [] →
      (parse (first :: (b ++ [eof]))).errors = [] → first.kind.startsStatement = true →
      (∃ defect, (parse (a ++ first :: (b ++ [eof]))).errors = [.ofToken first defect]) ∧
        (parse (first :: (b ++ [eof]))).program <:+
          (parse (a ++ first :: (b ++ [eof]))).program := by
  intro h
  let word (kind : Kind) (name : String) : Token := ⟨kind, ⟨0, 0, name⟩, none, 1⟩
  let semicolon := word (.mark .semicolon) ";"
  let one := word .number "1"
  let eof := word .eof ""
  let a := [word (.keyword .varWord) "var", word .identifier "a", word (.mark .equal) "=", one]
  let first := word (.keyword .funWord) "fun"
  let b := [word .identifier "f", word (.mark .leftParen) "(", word (.mark .rightParen) ")",
    word (.mark .leftBrace) "\x7b", word (.keyword .returnWord) "return", one, semicolon,
    word (.mark .rightBrace) "\x7d"]
  obtain ⟨⟨defect, herrors⟩, -⟩ := h a b semicolon first eof rfl rfl (by decide) (by decide)
    (by decide +kernel) (by decide +kernel) rfl
  have htwo : (parse (a ++ first :: (b ++ [eof]))).errors.length = 2 := by decide +kernel
  simp [herrors] at htwo

end Scriptlet
