import Scriptlet.Proofs.Parser.Proper
import Scriptlet.Proofs.Parser.Unended

/-!
# `Scriptlet.Proofs.Parser.Kept`: the trees that are kept

Every tree that a parser builds is well-formed, also when errors are reported on the way: an
assignment to what is no variable leaves the target behind, a list that is too long is built in
full, and a declaration in error is dropped as a whole, inside of a block too.

* `Parser.Keeps`: behind a value, the tokens that its tree keeps are among those that were read for
  it. There is one lemma for each parser.
* `parsed_trees_kept`: what this comes to for whole lists, which may be any lists at all.

Behind a list without an end token its last token is seen again. If it is a name, it must not be
read as a variable once more (`Cursor.Fresh`), or there would be a token in two places.
-/

set_option autoImplicit false

namespace Scriptlet

/-! ### Cursors and replies -/

namespace Cursor

/-- The tokens ahead end with the last one of the list. -/
def Placed (c : Cursor) : Prop := ∀ t ∈ c.rest.getLast?, t = c.last

/-- If nothing is left, the token seen again is no name. -/
def Fresh (c : Cursor) : Prop := c.rest = [] → c.last.kind ≠ .identifier

variable {c c' : Cursor}

/-- A later place of the list has the same last token ahead. -/
theorem Placed.later (h : c.Placed) {us : List Token} (hrest : c.rest = us ++ c'.rest)
    (hlast : c'.last = c.last) : c'.Placed := by
  intro t ht
  rw [hlast]
  refine h t ?_
  rw [hrest, List.getLast?_append, ht]
  rfl

/-- A token that was read last is the last one, if nothing is left. -/
theorem Placed.fresh (h : c.Placed) {t : Token} (hrest : c.rest = t :: c'.rest)
    -- With nothing left, the token that was read is the last one of the list, and it is the one
    -- that is seen again.
    (hlast : c'.last = c.last) (ht : t.kind ≠ .identifier) : c'.Fresh := by
  intro hnil
  have hlastToken : t = c.last := h t (by simp [hrest, hnil])
  rw [hlast, ← hlastToken]
  exact ht

/-- Going past a token does not go back. -/
theorem advance_behind (c : Cursor) : c.advance.Behind c := by
  unfold advance
  split
  · exact Behind.refl c
  · exact ⟨rfl, List.tail_suffix c.rest⟩

/-- Nor does going on behind an error. -/
theorem resume_behind (c : Cursor) : c.resume.Behind c := by
  obtain ⟨last, rest⟩ := c
  cases rest with
  | nil => exact Behind.refl _
  | cons t rest =>
      simp only [resume]
      split
      · exact Behind.refl _
      · exact ⟨rfl, (skipStatement_suffix t rest).trans (List.suffix_cons t rest)⟩

end Cursor

/-- A reply whose cursor is not in front of `c₀`. A value fits the tokens that were read for it as
`K` says, and `Q` holds behind it. -/
def Reply.Keeps {α : Type} (c₀ : Cursor) (Q : Cursor → Prop) (K : List Token → α → Prop) :
    Reply α → Prop
  | .done v _ c => c.last = c₀.last ∧ Q c ∧ ∃ us, c₀.rest = us ++ c.rest ∧ K us v
  | .fault _ _ c => c.Behind c₀
  | .starved => True

namespace Parser

open Cursor (Fresh Anywhere)

variable {α β : Type}

/-- Where `P` holds, a value that the parser finds fits the tokens that were read for it. `Q` holds
behind it. -/
structure Keeps (P Q : Cursor → Prop) (K : List Token → α → Prop) (p : Parser α) : Prop where
  reply {c : Cursor} : c.Placed → P c → (p c).Keeps c Q K

namespace Keeps

variable {P Q R : Cursor → Prop} {K L : List Token → α → Prop} {M : List Token → β → Prop}

/-- A parser without steps has no value whose tree could be wrong. -/
theorem starve : Keeps P Q K (starve : Parser α) := ⟨fun _ _ => trivial⟩

/-- A value that keeps no tokens is given without reading any. -/
theorem pure {v : α} (hv : K [] v) : Keeps P P K (pure v) :=
  ⟨fun _ hP => ⟨rfl, hP, [], rfl, hv⟩⟩

/-- Giving up leaves no tree behind. -/
theorem fail (defect : Defect) : Keeps P Q K (fail defect : Parser α) :=
  ⟨fun {c} _ _ => Cursor.Behind.refl c⟩

/-- What holds anywhere holds where more is known of the place. -/
theorem of_anywhere {p : Parser α} (hp : Keeps Anywhere Q K p) : Keeps P Q K p :=
  ⟨fun hc _ => hp.reply hc trivial⟩

/-- Less is said of the place and of the value. -/
theorem forget {p : Parser α} (hp : Keeps P Q K p) (hK : ∀ us v, K us v → L us v) :
    Keeps P Anywhere L p := by
  refine ⟨fun {c} hc hP => ?_⟩
  have hreply := hp.reply hc hP
  generalize p c = r at hreply ⊢
  cases r with
  | done v errors c' =>
      obtain ⟨hlast, -, us, hus, hv⟩ := hreply
      exact ⟨hlast, trivial, us, hus, hK us v hv⟩
  | fault error errors c' => exact hreply
  | starved => trivial

/-- The rule for two parsers in a row: the tokens of both are read one after the other. -/
theorem bind {p : Parser α} {f : α → Parser β} (hp : Keeps P Q K p)
    (hf : ∀ us v, K us v → Keeps Q R (fun vs => M (us ++ vs)) (f v)) :
    Keeps P R M (p >>= f) := by
  refine ⟨fun {c} hc hP => ?_⟩
  show (Parser.bind p f c).Keeps c R M
  unfold Parser.bind
  have hreply := hp.reply hc hP
  generalize p c = r at hreply ⊢
  cases r with
  | done v early c₁ =>
      obtain ⟨hlast, hQ, us, hus, hv⟩ := hreply
      -- The second parser starts in the same list, with the same last token.
      have hnext := (hf us v hv).reply (hc.later hus hlast) hQ
      show ((f v c₁).after early).Keeps c R M
      generalize f v c₁ = s at hnext ⊢
      cases s with
      | done w late c₂ =>
          obtain ⟨hlast', hR, vs, hvs, hw⟩ := hnext
          exact ⟨hlast'.trans hlast, hR, us ++ vs, by rw [hus, hvs, List.append_assoc], hw⟩
      | fault error late c₂ => exact hnext.trans ⟨hlast, us, hus.symm⟩
      | starved => trivial
  | fault error early c₁ => exact hreply
  | starved => trivial

/-- A value that is changed must still fit the tokens that were read for it. -/
theorem map {p : Parser α} {g : α → β} (hp : Keeps P Q K p) (hg : ∀ us v, K us v → M us (g v)) :
    Keeps P Q M (g <$> p) :=
  hp.bind fun us v hv => .pure (by simpa using hg us v hv)

/-- An error that is reported reads nothing. -/
theorem report (error : StaticError) : Keeps P P (fun us _ => us = []) (report error) :=
  ⟨fun _ hP => ⟨rfl, hP, [], rfl, rfl⟩⟩

/-- Nor does the limit check: a list that is too long is read on. -/
theorem checkLimit (count : Nat) (defect : Defect) :
    Keeps P P (fun us _ => us = []) (checkLimit count defect) := by
  refine ⟨fun {c} _ hP => ?_⟩
  rw [checkLimit_apply]
  exact ⟨rfl, hP, [], rfl, rfl⟩

/-- Looking for a kind of token reads nothing. -/
theorem check {kind : Kind} {f : Bool → Parser β} (hf : ∀ found, Keeps P R M (f found)) :
    Keeps P R M (check kind >>= f) := by
  refine ⟨fun {c} hc hP => ?_⟩
  rw [bind_of_clean (check_apply kind c)]
  exact (hf _).reply hc hP

/-- Where the end has not come, nothing is seen again. -/
theorem atEnd {f : Bool → Parser β} (hend : Keeps P R M (f true))
    (hgo : Keeps Fresh R M (f false)) : Keeps P R M (atEnd >>= f) := by
  refine ⟨fun {c} hc hP => ?_⟩
  rw [bind_of_clean (atEnd_apply c)]
  cases hatEnd : c.atEnd with
  | true => exact hend.reply hc hP
  | false => exact hgo.reply hc fun hnil => by simp [Cursor.atEnd, hnil] at hatEnd

/-- The rule for taking a token that is no name, if there is one. -/
theorem take? {kinds : List Kind} {f : Option Token → Parser β} (hkinds : .identifier ∉ kinds)
    (hsome : ∀ t, t.kind ∈ kinds → Keeps Fresh R (fun vs => M (t :: vs)) (f (some t)))
    (hnone : Keeps P R M (f none)) : Keeps P R M (take? kinds >>= f) := by
  refine ⟨fun {c} hc hP => ?_⟩
  obtain ⟨t, rest, hrest, ht, -, heq⟩ | ⟨-, heq⟩ := take?_cases kinds c
  -- The token was ahead, so that it counts as read, and it is no name that could be seen again.
  · rw [bind_of_clean heq]
    have hname : t.kind ≠ .identifier := fun hkind => hkinds (hkind ▸ ht)
    have hc' : Cursor.Placed ⟨c.last, rest⟩ :=
      hc.later (show c.rest = [t] ++ rest from hrest) rfl
    have hfresh : Cursor.Fresh ⟨c.last, rest⟩ := hc.fresh hrest rfl hname
    have hreply := (hsome t ht).reply hc' hfresh
    generalize f (some t) ⟨c.last, rest⟩ = r at hreply ⊢
    cases r with
    | done v errors c₁ =>
        obtain ⟨hlast, hR, vs, hvs, hv⟩ := hreply
        exact ⟨hlast, hR, t :: vs, by rw [hrest, List.cons_append, ← hvs], hv⟩
    | fault error errors c₁ =>
        exact hreply.trans (Cursor.behind_cons hrest rfl)
    | starved => trivial
  · rw [bind_of_clean heq]
    exact hnone.reply hc hP

/-- The rule for a token that has to be there. -/
theorem demand {kind : Kind} (hkind : kind ≠ .eof) (defect : Defect)
    (hQ : ∀ {c c' : Cursor} {t : Token}, c.Placed → c.rest = t :: c'.rest → c'.last = c.last →
      t.kind = kind → Q c') :
    Keeps P Q (fun us t => us = [t] ∧ t.kind = kind) (demand kind defect) := by
  refine ⟨fun {c} hc _ => ?_⟩
  obtain ⟨t, rest, hrest, ht, heq⟩ | ⟨-, heq⟩ := demand_cases hkind defect c
  · rw [heq]
    exact ⟨rfl, hQ hc hrest rfl ht, [t], hrest, rfl, ht⟩
  · rw [heq]
    exact Cursor.Behind.refl c

/-- The rule for a mark that has to be there. It is no name, so that nothing is seen again as one.
-/
theorem expect {kind : Kind} (hkind : kind ≠ .eof) (hname : kind ≠ .identifier)
    (place : String) :
    Keeps P Fresh (fun us t => us = [t] ∧ t.kind = kind) (expect kind place) :=
  demand hkind _ fun hc hrest hlast ht => hc.fresh hrest hlast (ht ▸ hname)

/-- The rule for a name that has to be there. -/
theorem expectName (thing : String) :
    Keeps P Anywhere (fun us t => us = [t] ∧ t.kind = .identifier) (expectName thing) :=
  demand (by decide) _ fun _ _ _ _ => trivial

/-- The rule for a parser whose error is reported: the tokens of a value that is dropped do not
matter. -/
theorem recover {p : Parser α} (hp : Keeps P Q K p) :
    Keeps P Anywhere (fun us v => ∀ x ∈ v, K us x) (recover p) := by
  refine ⟨fun {c} hc hP => ?_⟩
  unfold Parser.recover
  have hreply := hp.reply hc hP
  generalize p c = r at hreply ⊢
  cases r with
  | done v errors c₁ =>
      obtain ⟨hlast, -, us, hus, hv⟩ := hreply
      refine ⟨hlast, trivial, us, hus, ?_⟩
      rintro _ ⟨⟩
      exact hv
  | fault error errors c₁ =>
      -- Nothing is kept of a declaration in error, and all of its tokens count as read.
      obtain ⟨hlast, us, hus⟩ := c₁.resume_behind.trans hreply
      exact ⟨hlast, trivial, us, hus.symm, nofun⟩
  | starved => trivial

end Keeps

/-! ### Expressions -/

mutual

/-- An expression keeps tokens that were read for it. An assignment keeps the name of its target,
and what is assigned. -/
theorem expression_keeps : ∀ n, Keeps Fresh Anywhere Expr.Kept (expression n)
  | 0 => .starve
  | n + 1 => by
    unfold expression
    refine .bind (binary_keeps n binaryLevels (List.Subset.refl _)) fun us target htarget => ?_
    refine .take? (by decide) (fun equals _ => ?_) (.pure (htarget.append []))
    refine .bind (expression_keeps n) fun vs value hvalue => ?_
    split
    · exact .pure (by simpa using htarget.set hvalue)
    · -- Not an error that stops the parser: the target is kept, and the value is dropped.
      exact .bind (.report _) fun _ _ _ => .pure (htarget.append _)

/-- A ladder of levels, whose operators are kept in the tree of their level. -/
theorem binary_keeps : ∀ n levels, levels ⊆ binaryLevels →
    Keeps Fresh Anywhere Expr.Kept (binary n levels)
  | 0, _, _ => .starve
  | n + 1, [], _ => unary_keeps n
  | n + 1, level :: tighter, h => by
    obtain ⟨hlevel, htighter⟩ := List.cons_subset.1 h
    exact .bind (binary_keeps n tighter htighter) fun us left hleft =>
      binaryRest_keeps n hlevel htighter hleft

/-- The operators behind an operand, which stand behind its tokens `us`. The tree grows to the left,
and so do the tokens that it keeps. -/
theorem binaryRest_keeps : ∀ n {level tighter left us}, level ∈ binaryLevels →
    tighter ⊆ binaryLevels → left.Kept us →
    Keeps Anywhere Anywhere (fun vs => Expr.Kept (us ++ vs)) (binaryRest n level tighter left)
  | 0, _, _, _, _, _, _, _ => .starve
  | n + 1, level, tighter, left, us, hlevel, htighter, hleft => by
    unfold binaryRest
    -- No level has a name for an operator.
    have hkinds : ∀ level ∈ binaryLevels, Kind.identifier ∉ level.operators := by decide
    refine .take? (hkinds level hlevel) (fun op hop => ?_) (.pure (hleft.append []))
    refine .bind (binary_keeps n tighter htighter) fun vs right hright => ?_
    have hrest := binaryRest_keeps n hlevel htighter (hleft.join hlevel hop hright)
    simpa only [List.append_assoc, List.cons_append] using hrest

/-- Operators in front, which are kept, and an operand with its argument lists. -/
theorem unary_keeps : ∀ n, Keeps Fresh Anywhere Expr.Kept (unary n)
  | 0 => .starve
  | n + 1 => by
    unfold unary
    refine .take? (by decide) (fun op hop => ?_) ?_
    · exact .bind (unary_keeps n) fun us operand hoperand =>
        .pure (by simpa using hoperand.unary hop)
    · exact .bind (primary_keeps n) fun us callee hcallee => calls_keeps n hcallee

/-- The argument lists behind a callee whose tokens are `us`. Of each list the closing parenthesis
is kept. -/
theorem calls_keeps : ∀ n {callee us}, callee.Kept us →
    Keeps Anywhere Anywhere (fun vs => Expr.Kept (us ++ vs)) (calls n callee)
  | 0, _, _, _ => .starve
  | n + 1, callee, us, hcallee => by
    unfold calls
    refine .take? (by decide) (fun opening _ => .check fun closes => ?_) (.pure (hcallee.append []))
    -- What follows the arguments `args`, which were read from the tokens `vs`.
    have hlater : ∀ {vs args}, Expr.KeptAll vs args → Keeps Anywhere Anywhere
        (fun ws => Expr.Kept (us ++ opening :: (vs ++ ws)))
        (expect (.mark .rightParen) "after arguments" >>= fun paren =>
          calls n (.call callee paren args)) := by
      intro vs args hargs
      refine .bind (.expect (by decide) (by decide) _) fun ws paren hws => .of_anywhere ?_
      obtain ⟨rfl, hparen⟩ := hws
      have hrest := calls_keeps n (Expr.Kept.call opening hcallee hargs hparen)
      simpa only [List.append_assoc, List.cons_append, List.nil_append] using hrest
    cases closes with
    | true =>
        have hnil : Expr.KeptAll [] [] := ⟨List.forall_mem_nil _, held_nil []⟩
        exact .bind (.pure hnil) fun vs args hargs => .of_anywhere (hlater hargs)
    | false => exact .bind (arguments_keeps n 0) fun vs args hargs => hlater hargs

/-- Arguments, each from its own tokens. The commas between them are dropped. -/
theorem arguments_keeps : ∀ n count, Keeps Fresh Anywhere Expr.KeptAll (arguments n count)
  | 0, _ => .starve
  | n + 1, count => by
    unfold arguments
    refine .bind (.checkLimit _ _) fun us _ hus => ?_
    subst hus
    refine .bind (expression_keeps n) fun us arg harg => ?_
    refine .take? (by decide) (fun comma _ => ?_) (.pure (by simpa using harg.single))
    exact .bind (arguments_keeps n (count + 1)) fun vs more hmore =>
      .pure (by simpa using Expr.KeptAll.cons harg hmore)

/-- An operand: a name is kept and a constant is not. A name must not be one that is seen again
behind the end of the list. -/
theorem primary_keeps : ∀ n, Keeps Fresh Anywhere Expr.Kept (primary n)
  | 0 => .starve
  | n + 1 => by
    refine ⟨fun {c} hc hfresh => ?_⟩
    obtain ⟨value, -, heq⟩ | ⟨hkind, heq⟩ | ⟨-, heq⟩ | ⟨-, -, -, heq⟩ := primary_cases n c
    · rw [heq]
      obtain ⟨hlast, us, hus⟩ := c.advance_behind
      exact ⟨hlast, trivial, us, hus.symm, .literal, held_nil us⟩
    · rw [heq]
      obtain ⟨last, rest⟩ := c
      cases rest with
      -- With nothing left, the token in sight was read before.
      | nil => exact absurd hkind (hfresh rfl)
      | cons t rest =>
          have hkind : t.kind = .identifier := hkind
          rw [Cursor.advance_cons (by rw [hkind]; decide)]
          exact ⟨rfl, trivial, [t], rfl, .get hkind, fun _ => Nat.le_refl _⟩
    · rw [heq]
      refine Keeps.reply (.take? (by decide) (fun opening _ => ?_) (.fail _)) hc hfresh
      refine .bind (expression_keeps n) fun us inner hinner => ?_
      refine .bind (.expect (by decide) (by decide) _) fun vs closing hvs =>
        .of_anywhere (.pure ?_)
      obtain ⟨rfl, -⟩ := hvs
      simpa using hinner.group
    · rw [heq]
      exact Cursor.Behind.refl c

end

/-! ### Declarations and statements -/

/-- Parameters are kept in their order, and the commas are dropped. -/
theorem parameters_keeps : ∀ n count, Keeps Anywhere Anywhere KeptNames (parameters n count)
  | 0, _ => .starve
  | n + 1, count => by
    unfold parameters
    refine .bind (.checkLimit _ _) fun us _ hus => ?_
    subst hus
    refine .bind (.expectName _) fun us param hparam => ?_
    obtain ⟨rfl, hkind⟩ := hparam
    refine .take? (by decide) (fun comma _ => .of_anywhere ?_) (.pure ?_)
    · refine .bind (parameters_keeps n (count + 1)) fun vs more hmore => .pure ?_
      simpa using keptNames_cons hkind hmore
    · exact ⟨List.forall_mem_singleton.2 hkind, fun _ => Nat.le_refl _⟩

/-- The mark at the end of a statement. -/
theorem closing_keeps {P : Cursor → Prop} {K : List Token → α → Prop} {kind : Kind}
    (hkind : kind ≠ .eof) (hname : kind ≠ .identifier) (place : String) {v : α}
    (hv : ∀ t, K [t] v) : Keeps P Fresh K (expect kind place >>= fun _ => pure v) :=
  .bind (.expect hkind hname place) fun us t hus => .pure (by simpa [hus.1] using hv t)

/-- A variable declaration keeps its name, and what its initial value keeps. -/
theorem variableDeclaration_keeps (n : Nat) :
    Keeps Anywhere Fresh Stmt.Kept (variableDeclaration n) := by
  unfold variableDeclaration
  refine .bind (.expectName _) fun us name hus => ?_
  obtain ⟨rfl, hname⟩ := hus
  refine .take? (by decide) (fun equals _ => ?_) ?_
  · refine .bind (.map (expression_keeps n) fun us e he => he.some) fun us init hinit =>
      closing_keeps (by decide) (by decide) _ fun semicolon => ?_
    simpa using Stmt.kept_declare hname (hinit.cons equals) semicolon
  · refine .bind (.pure (Expr.keptOption_none [])) fun us init hinit =>
      closing_keeps (by decide) (by decide) _ fun semicolon => ?_
    simpa using Stmt.kept_declare hname hinit semicolon

/-- An expression with its semicolon keeps what the expression keeps. -/
theorem expressionStatement_keeps (n : Nat) :
    Keeps Fresh Fresh Stmt.KeptPlain (expressionStatement n) :=
  .bind (expression_keeps n) fun _ _ he =>
    closing_keeps (by decide) (by decide) _ fun semicolon => Stmt.kept_expression he semicolon

/-- A clause that is missing keeps nothing. -/
theorem expressionBefore_keeps (n : Nat) (kind : Kind) :
    Keeps Fresh Anywhere Expr.KeptOption (expressionBefore n kind) := by
  refine .check fun stops => ?_
  cases stops with
  | true => exact (Keeps.pure (Expr.keptOption_none [])).forget fun _ _ h => h
  | false => exact .map (expression_keeps n) fun us e he => he.some

/-- A `return` keeps its word, which the tree needs to say where it stands. -/
theorem returnStatement_keeps (n : Nat) {word : Token} (hword : word.kind = .keyword .returnWord) :
    Keeps Fresh Fresh (fun us => Stmt.KeptPlain (word :: us)) (returnStatement n word) := by
  have heq : returnStatement n word = _ := funext (returnStatement_eq n word)
  rw [heq]
  exact .bind (expressionBefore_keeps n _) fun us result hresult =>
    closing_keeps (by decide) (by decide) _ fun semicolon =>
      Stmt.kept_giveBack hword hresult semicolon

/-- The first clause of a `for` keeps what its declaration or its expression keeps. -/
theorem forInitializer_keeps (n : Nat) :
    Keeps Fresh Fresh Stmt.KeptOption (forInitializer n) := by
  unfold forInitializer
  refine .take? (by decide) (fun semicolon _ => .pure ⟨nofun, held_nil _⟩) ?_
  refine .take? (by decide) (fun word _ => .of_anywhere ?_) ?_
  · exact .map (variableDeclaration_keeps n) fun us s hs => (hs.cons word).some
  · exact .map (expressionStatement_keeps n) fun us s hs => hs.1.some

mutual

/-- A declaration keeps tokens that were read for it. In error it keeps nothing. -/
theorem declaration_keeps : ∀ n,
    Keeps Fresh Anywhere (fun us v => ∀ s ∈ v, Stmt.Kept us s) (declaration n)
  | 0 => .starve
  | n + 1 => by
    unfold declaration
    refine .recover (Q := Anywhere) (.take? (by decide) (fun word _ => .of_anywhere ?_) ?_)
    · dsimp only
      split
      · exact (functionDeclaration_keeps n).forget fun us s hs => hs.cons word
      · exact (variableDeclaration_keeps n).forget fun us s hs => hs.cons word
    · exact (statement_keeps n).forget fun us s hs => hs.1

/-- Declarations keep what each of them keeps, in their order. -/
theorem declarations_keeps : ∀ n inBlock,
    Keeps Anywhere Anywhere Stmt.KeptAll (declarations n inBlock)
  | 0, _ => .starve
  | n + 1, inBlock => by
    unfold declarations
    have hnil : Stmt.KeptAll [] [] := ⟨List.forall_mem_nil _, held_nil []⟩
    refine .atEnd (.check fun closes => .pure hnil) (.check fun closes => ?_)
    split
    · exact .of_anywhere (.pure hnil)
    · refine .bind (declaration_keeps n) fun us first hfirst =>
        .bind (declarations_keeps n inBlock) fun vs more hmore => .pure ?_
      simpa using hmore.toList_append hfirst

/-- A block keeps what its declarations keep. -/
theorem block_keeps : ∀ n, Keeps Anywhere Anywhere Stmt.KeptAll (block n)
  | 0 => .starve
  | n + 1 => by
    refine (Keeps.bind (declarations_keeps n true) fun us body hbody =>
      closing_keeps (by decide) (by decide) _ fun right => ?_).forget fun _ _ h => h
    exact hbody.append [right]

/-- A function keeps its name, its parameters and what its body keeps. -/
theorem functionDeclaration_keeps : ∀ n,
    Keeps Anywhere Anywhere Stmt.Kept (functionDeclaration n)
  | 0 => .starve
  | n + 1 => by
    unfold functionDeclaration
    refine .bind (.expectName _) fun us name hname => ?_
    refine .bind (.expect (by decide) (by decide) _) fun vs opening hopening =>
      .check fun closes => ?_
    obtain ⟨rfl, hkind⟩ := hname
    obtain ⟨rfl, -⟩ := hopening
    -- What follows the parameters `params`, which were read from the tokens `us`.
    have hlater : ∀ {us params}, KeptNames us params → Keeps Anywhere Anywhere
        (fun vs => Stmt.Kept (name :: opening :: (us ++ vs)))
        (expect (.mark .rightParen) "after parameters" >>= fun _ =>
          expect (.mark .leftBrace) "before function body" >>= fun _ =>
            block n >>= fun body => pure (Stmt.function name params body)) := by
      intro us params hparams
      refine .bind (.expect (by decide) (by decide) _) fun vs closing hclosing => ?_
      refine .bind (.expect (by decide) (by decide) _) fun ws left hleft => .of_anywhere ?_
      refine .bind (block_keeps n) fun xs body hbody => .pure ?_
      obtain ⟨rfl, -⟩ := hclosing
      obtain ⟨rfl, -⟩ := hleft
      simpa using Stmt.kept_function hkind hparams left hbody
    cases closes with
    | true =>
        have hnil : KeptNames [] [] := ⟨List.forall_mem_nil _, held_nil []⟩
        exact .bind (.pure hnil) fun us params hparams => .of_anywhere (hlater hparams)
    | false =>
        exact .bind (.of_anywhere (parameters_keeps n 0)) fun us params hparams => hlater hparams

/-- A statement that is none of a declaration. Of the words that open one, only `return` is kept. -/
theorem statement_keeps : ∀ n, Keeps Fresh Anywhere Stmt.KeptPlain (statement n)
  | 0 => .starve
  | n + 1 => by
    rw [statement_succ]
    refine .take? (by decide) (fun word hword => ?_)
      ((expressionStatement_keeps n).forget fun _ _ h => h)
    show Keeps Fresh Anywhere _ (opened n word)
    obtain ⟨-, heq⟩ | ⟨-, heq⟩ | ⟨hkind, heq⟩ | ⟨-, heq⟩ | ⟨-, heq⟩ := opened_cases n hword <;>
      rw [heq]
    · exact .of_anywhere ((forStatement_keeps n).forget fun us s hs => hs.cons word)
    · exact .of_anywhere ((ifStatement_keeps n).forget fun us s hs => hs.cons word)
    · exact (returnStatement_keeps n hkind).forget fun _ _ h => h
    · exact .of_anywhere ((whileStatement_keeps n).forget fun us s hs => hs.cons word)
    · exact .of_anywhere (.map (block_keeps n) fun us body hbody => hbody.block.cons word)

/-- A `for` loop keeps what its clauses and its body keep. The trees that it stands for use each of
them once. -/
theorem forStatement_keeps : ∀ n, Keeps Anywhere Anywhere Stmt.KeptPlain (forStatement n)
  | 0 => .starve
  | n + 1 => by
    unfold forStatement
    refine .bind (.expect (by decide) (by decide) _) fun _ opening h₁ => ?_
    refine .bind (forInitializer_keeps n) fun us init hinit => ?_
    refine .bind (expressionBefore_keeps n _) fun vs condition hcondition => ?_
    refine .bind (.expect (by decide) (by decide) _) fun _ semicolon h₂ => ?_
    refine .bind (expressionBefore_keeps n _) fun ws increment hincrement => ?_
    refine .bind (.expect (by decide) (by decide) _) fun _ closing h₃ => ?_
    refine .bind (statement_keeps n) fun xs body hbody => .pure ?_
    obtain ⟨rfl, -⟩ := h₁
    obtain ⟨rfl, -⟩ := h₂
    obtain ⟨rfl, -⟩ := h₃
    simpa using Stmt.kept_ofFor hinit hcondition hincrement hbody

/-- An `if` keeps what its condition and its branches keep. -/
theorem ifStatement_keeps : ∀ n, Keeps Anywhere Anywhere Stmt.KeptPlain (ifStatement n)
  | 0 => .starve
  | n + 1 => by
    unfold ifStatement
    refine .bind (.expect (by decide) (by decide) _) fun _ opening hopening => ?_
    refine .bind (expression_keeps n) fun us condition hcondition => ?_
    refine .bind (.expect (by decide) (by decide) _) fun _ closing hclosing => ?_
    refine .bind (statement_keeps n) fun vs yes hyes => ?_
    obtain ⟨rfl, -⟩ := hopening
    obtain ⟨rfl, -⟩ := hclosing
    refine .take? (by decide) (fun word _ => ?_) (.pure ?_)
    · refine .bind (statement_keeps n) fun ws no hno => .pure ?_
      simpa using Stmt.kept_branch_else hcondition hyes hno
    · simpa using Stmt.kept_branch hcondition hyes

/-- A `while` loop keeps what its condition and its body keep. -/
theorem whileStatement_keeps : ∀ n, Keeps Anywhere Anywhere Stmt.KeptPlain (whileStatement n)
  | 0 => .starve
  | n + 1 => by
    unfold whileStatement
    refine .bind (.expect (by decide) (by decide) _) fun _ opening hopening => ?_
    refine .bind (expression_keeps n) fun us condition hcondition => ?_
    refine .bind (.expect (by decide) (by decide) _) fun _ closing hclosing => ?_
    refine .bind (statement_keeps n) fun vs body hbody => .pure ?_
    obtain ⟨rfl, -⟩ := hopening
    obtain ⟨rfl, -⟩ := hclosing
    simpa using Stmt.kept_loop hcondition hbody

end

end Parser

/-- **Every tree that the parser keeps is well-formed and made of tokens that were read.** This
holds of any list of tokens, whatever errors are reported. Each token of a tree is of a kind that
its place asks for, at any depth, and the trees together hold each token at most as often as the
list does. -/
theorem parsed_trees_kept (tokens : List Token) :
    (∀ s ∈ (parse tokens).program, s.Proper) ∧
      (Stmt.tokensAll (parse tokens).program).Subperm tokens := by
  cases hlast : tokens.getLast? with
  | none =>
      have hnil : (parse tokens).program = [] := by simp [parse, hlast]
      rw [hnil]
      exact ⟨List.forall_mem_nil _, List.nil_subperm⟩
  | some last =>
      obtain ⟨c, hc⟩ := parse_eq_of_steps hlast (Nat.le_refl _)
      -- The token that stands in at the end is one of the tokens, so nothing is kept from outside.
      have hplaced : Cursor.Placed ⟨last, tokens⟩ := by
        intro t ht
        exact Option.some.inj (ht.symm.trans hlast)
      have hreply := (Parser.declarations_keeps (parseSteps tokens) false).reply hplaced trivial
      rw [hc] at hreply
      obtain ⟨-, -, us, hus, hproper, hheld⟩ := hreply
      refine ⟨hproper, hheld.subperm.trans ?_⟩
      have hsub : us.Sublist tokens := by
        rw [show tokens = us ++ c.rest from hus]
        exact List.sublist_append_left us c.rest
      exact hsub.subperm

end Scriptlet
