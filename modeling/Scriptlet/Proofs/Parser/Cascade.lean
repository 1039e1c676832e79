import Mathlib.Data.List.Forall2
import Scriptlet.Proofs.Parser.Scrap

/-!
# `Scriptlet.Proofs.Parser.Cascade`: errors do not pile up

An error that stops a parser is reported by the declaration around it, and each block around that
declaration may fail in turn. So one mistake can lead to several errors. They never pile up on a
token all the same, unless that is the end token.

* `Trail`: errors met one after the other on the way through the tokens. Behind an error the way
  goes on past the token that is blamed. Only the end token is never passed.
* `Parser.Orderly spare`: a parser whose errors lie on such a trail. Each brace that it opens pays
  for one error at the end token, and `spare` more are allowed. A declaration has one to spare, and
  so has what stands behind an opening brace; the brace itself makes up for that. There is one
  lemma for each parser.
* `stopping_errors_advance`: what this comes to for whole lists.
-/

set_option autoImplicit false

namespace Scriptlet

/-! ### Trails -/

/-- The errors that stopped a parser. -/
def stopping (errors : List StaticError) : List StaticError := errors.filter (·.defect.stops)

/-- The number of errors at the end token. -/
def endErrors (errors : List StaticError) : Nat := errors.countP (·.location = .atEnd)

/-- The number of opening braces before the end token. -/
def openings : List Token → Nat
  | [] => 0
  | t :: ts =>
    if t.kind = .eof then 0 else (if t.kind = .mark .leftBrace then 1 else 0) + openings ts

/-- There is an end token. -/
def HasEnd (ts : List Token) : Prop := ∃ t ∈ ts, t.kind = .eof

/-- The way from the tokens `ts` to the tokens `us`, with these errors on it. -/
inductive Trail : List Token → List StaticError → List Token → Prop where
  | done {ts : List Token} : Trail ts [] ts
  | pass {t : Token} {ts us : List Token} {es : List StaticError} : t.kind ≠ .eof →
      Trail ts es us → Trail (t :: ts) es us
  | blame {t : Token} {ts us : List Token} {es : List StaticError} (defect : Defect) :
      t.kind ≠ .eof → Trail ts es us → Trail (t :: ts) (.ofToken t defect :: es) us
  | blameEnd {t : Token} {ts us : List Token} {es : List StaticError} (defect : Defect) :
      t.kind = .eof → Trail (t :: ts) es us → Trail (t :: ts) (.ofToken t defect :: es) us

/-- The errors that stopped two parsers in a row are those of the one and then those of the other.
-/
theorem stopping_append (es es' : List StaticError) :
    stopping (es ++ es') = stopping es ++ stopping es' :=
  List.filter_append es es'

/-- An error that stops a parser counts. -/
theorem stopping_singleton {e : StaticError} (h : e.defect.stops = true) : stopping [e] = [e] := by
  simp [stopping, h]

/-- Errors at the end token add up. -/
theorem endErrors_append (es es' : List StaticError) :
    endErrors (es ++ es') = endErrors es + endErrors es' :=
  List.countP_append

/-- A token that is no end does not matter for whether an end token is ahead. -/
theorem hasEnd_cons {t : Token} {ts : List Token} (ht : t.kind ≠ .eof) :
    HasEnd (t :: ts) ↔ HasEnd ts := by
  simp [HasEnd, ht]

namespace Trail

variable {ts us vs : List Token} {es es' : List StaticError}

/-- Two trails in a row. -/
theorem append (h : Trail ts es us) (h' : Trail us es' vs) : Trail ts (es ++ es') vs := by
  induction h with
  | done => exact h'
  | pass ht _ ih => exact .pass ht (ih h')
  | blame defect ht _ ih => exact .blame defect ht (ih h')
  | blameEnd defect ht _ ih => exact .blameEnd defect ht (ih h')

/-- No trail goes past the end token. -/
theorem eq_of_end {t : Token} (ht : t.kind = .eof) (h : Trail (t :: ts) es us) : us = t :: ts := by
  generalize hfrom : t :: ts = front at h
  induction h with
  | done => rfl
  | pass hne _ _ | blame _ hne _ _ =>
      cases hfrom
      exact absurd ht hne
  | blameEnd _ _ _ ih => exact ih hfrom

/-- An end token that was ahead is still ahead at the other end of a trail, since no trail goes past
it. -/
theorem hasEnd (h : Trail ts es us) (hts : HasEnd ts) : HasEnd us := by
  induction h with
  | done => exact hts
  | pass ht _ ih | blame _ ht _ ih => exact ih ((hasEnd_cons ht).1 hts)
  | blameEnd _ _ _ ih => exact ih hts

/-- Before the end token is reached no error is blamed on it. -/
theorem endErrors_eq_zero (h : Trail ts es us) (hus : ∀ t ∈ us.head?, t.kind ≠ .eof) :
    endErrors es = 0 := by
  -- On the trail: its last place is before the end token, so no step on it can have blamed that
  -- token.
  induction h with
  | done => rfl
  | pass _ _ ih => exact ih hus
  | blame defect ht _ ih =>
      have hlater := ih hus
      simpa [endErrors, StaticError.ofToken, Token.is, ht] using hlater
  | blameEnd _ ht hlater _ =>
      cases hlater.eq_of_end ht
      exact absurd ht (hus _ rfl)

/-- On the way, opening braces are passed and none is added. -/
theorem openings_le (h : Trail ts es us) : openings us ≤ openings ts := by
  induction h with
  | done => exact Nat.le_refl _
  | pass ht _ ih | blame _ ht _ ih =>
      simp only [openings, ht, if_false]
      omega
  | blameEnd _ _ _ ih => exact ih

end Trail

namespace Cursor

/-- Going past a token is a trail, and so is staying at the end token. -/
theorem advance_trail (c : Cursor) : Trail c.rest [] c.advance.rest := by
  obtain ⟨last, rest⟩ := c
  cases rest with
  | nil => exact .done
  | cons t rest =>
      by_cases ht : t.kind = .eof
      · have hstays : advance ⟨last, t :: rest⟩ = ⟨last, t :: rest⟩ := by
          simp [advance, atEnd, Token.is, ht]
        rw [hstays]
        exact .done
      · rw [advance_cons ht]
        exact .pass ht .done

/-- Skipping passes tokens and blames none. It stops in front of the end token. -/
theorem skipStatement_trail (previous : Token) (ts : List Token) :
    Trail ts [] (skipStatement previous ts) := by
  induction ts generalizing previous with
  | nil => exact .done
  | cons t ts ih =>
      unfold skipStatement
      split
      case isTrue => exact .done
      case isFalse hgoes =>
        have ht : t.kind ≠ .eof := by
          intro heof
          simp [Token.is, heof] at hgoes
        exact .pass ht (ih t)

/-- Behind an error the token that is blamed is skipped, unless it is the end token. -/
theorem resume_trail {c : Cursor} (hc : HasEnd c.rest) (defect : Defect) :
    Trail c.rest [.ofToken c.peek defect] c.resume.rest := by
  obtain ⟨last, rest⟩ := c
  cases rest with
  | nil =>
      obtain ⟨t, ht, -⟩ := hc
      cases ht
  | cons t rest =>
      by_cases ht : t.kind = .eof
      · have hstays : resume ⟨last, t :: rest⟩ = ⟨last, t :: rest⟩ := by
          simp [resume, Token.is, ht]
        rw [hstays]
        exact .blameEnd defect ht .done
      · have hskips : resume ⟨last, t :: rest⟩ = ⟨last, skipStatement t rest⟩ := by
          simp [resume, Token.is, ht]
        rw [hskips]
        exact .blame defect ht (skipStatement_trail t rest)

end Cursor

/-! ### Replies and parsers -/

/-- The errors of the reply are on a trail from the tokens `ts` to the cursor of the reply, and so
is the error that stopped the parser, if there is one. Errors at the end token are paid for by
opening braces, but for `spare` of them. -/
inductive Reply.Orderly {α : Type} (ts : List Token) (spare : Nat) : Reply α → Prop where
  | done {v : α} {es : List StaticError} {c : Cursor} : Trail ts (stopping es) c.rest →
      endErrors (stopping es) + openings c.rest ≤ openings ts + spare →
      Orderly ts spare (.done v es c)
  | fault {defect : Defect} {es : List StaticError} {c : Cursor} : defect.stops = true →
      Trail ts (stopping es) c.rest →
      endErrors (stopping es) + openings c.rest ≤ openings ts + spare →
      Orderly ts spare (.fault (.ofToken c.peek defect) es c)
  | starved : Orderly ts spare .starved

namespace Reply.Orderly

variable {α : Type} {ts us : List Token} {spare more : Nat} {r : Reply α}

/-- More errors at the end token may be allowed. -/
theorem mono (h : r.Orderly ts spare) (hle : spare ≤ more) : r.Orderly ts more := by
  cases h with
  | done htrail hcount => exact .done htrail (by omega)
  | fault hstops htrail hcount => exact .fault hstops htrail (by omega)
  | starved => exact .starved

/-- A reply behind a trail. -/
theorem after {es : List StaticError} (h : r.Orderly us spare) (htrail : Trail ts (stopping es) us)
    (hcount : endErrors (stopping es) + openings us ≤ openings ts + more) :
    (r.after es).Orderly ts (more + spare) := by
  cases h with
  | done htrail' hcount' =>
      refine .done ?_ ?_
      · rw [stopping_append]
        exact htrail.append htrail'
      · rw [stopping_append, endErrors_append]
        omega
  | fault hstops htrail' hcount' =>
      refine .fault hstops ?_ ?_
      · rw [stopping_append]
        exact htrail.append htrail'
      · rw [stopping_append, endErrors_append]
        omega
  | starved => exact .starved

/-- A reply behind a token. An opening brace pays for one error. -/
theorem pass {t : Token} (ht : t.kind ≠ .eof) (h : r.Orderly us
    (spare + if t.kind = .mark .leftBrace then 1 else 0)) : r.Orderly (t :: us) spare := by
  have hopenings : openings (t :: us) =
      (if t.kind = .mark .leftBrace then 1 else 0) + openings us := by
    simp [openings, ht]
  cases h with
  | done htrail hcount => exact .done (.pass ht htrail) (by omega)
  | fault hstops htrail hcount => exact .fault hstops (.pass ht htrail) (by omega)
  | starved => exact .starved

end Reply.Orderly

namespace Parser

variable {α β : Type}

/-- Wherever an end token is ahead, the parser gives an orderly reply. -/
structure Orderly (spare : Nat) (p : Parser α) : Prop where
  reply {c : Cursor} : HasEnd c.rest → (p c).Orderly c.rest spare

namespace Orderly

variable {spare more : Nat}

/-- A parser that has less to spare also has more to spare. -/
theorem mono {p : Parser α} (h : Orderly spare p) (hle : spare ≤ more) : Orderly more p :=
  ⟨fun hc => (h.reply hc).mono hle⟩

/-- A parser without steps gives no reply that could be out of order. -/
theorem starve : Orderly spare (starve : Parser α) := ⟨fun _ => .starved⟩

/-- Without an error that stops a parser there is nothing to pay for. -/
theorem calm {es : List StaticError} {c c' : Cursor} (v : α) (hes : stopping es = [])
    (htrail : Trail c.rest [] c'.rest) : (Reply.done v es c').Orderly c.rest spare := by
  have hle := htrail.openings_le
  refine .done (by rwa [hes]) ?_
  rw [hes]
  simp only [endErrors, List.countP_nil]
  omega

/-- Giving a value reads nothing and blames nothing. -/
theorem pure (v : α) : Orderly spare (pure v) := ⟨fun _ => calm v rfl .done⟩

/-- The rule for two parsers in a row. -/
theorem bindAdd {p : Parser α} {f : α → Parser β} (hp : Orderly spare p)
    (hf : ∀ v, Orderly more (f v)) : Orderly (spare + more) (p >>= f) := by
  refine ⟨fun {c} hc => ?_⟩
  show (Parser.bind p f c).Orderly c.rest (spare + more)
  -- The errors of the first parser come first, and its trail is followed by that of the second one.
  unfold Parser.bind
  have hreply := hp.reply hc
  generalize p c = r at hreply
  cases hreply with
  | @done v es c₁ htrail hcount =>
      exact ((hf v).reply (htrail.hasEnd hc)).after htrail hcount
  | fault hstops htrail hcount => exact .fault hstops htrail (by omega)
  | starved => exact .starved

/-- The same where the first parser has nothing to spare. -/
theorem bind {p : Parser α} {f : α → Parser β} (hp : Orderly 0 p) (hf : ∀ v, Orderly spare (f v)) :
    Orderly spare (p >>= f) := by
  simpa using bindAdd hp hf

/-- The same where the first parser has all there is to spare. -/
theorem bindCalm {p : Parser α} {f : α → Parser β} (hp : Orderly spare p)
    (hf : ∀ v, Orderly 0 (f v)) : Orderly spare (p >>= f) :=
  bindAdd hp hf

/-- Changing the value of a reply changes none of its errors. -/
theorem map {p : Parser α} (g : α → β) (hp : Orderly spare p) : Orderly spare (g <$> p) :=
  bindCalm hp fun v => pure (g v)

/-- Giving up blames the token in sight, and goes no step further. The one who reports this error
pays for it. -/
theorem fail {defect : Defect} (hdefect : defect.stops = true) :
    Orderly spare (fail defect : Parser α) := by
  refine ⟨fun {c} _ => .fault hdefect .done ?_⟩
  simp [stopping, endErrors]

/-- An error that stops no parser is reported aside from the trail. -/
theorem report {t : Token} {defect : Defect} (hdefect : defect.stops = false) :
    Orderly spare (report (.ofToken t defect)) := by
  refine ⟨fun _ => calm () ?_ .done⟩
  simp [stopping, StaticError.ofToken, hdefect]

/-- Too many items do not stop a parser. -/
theorem checkLimit (count : Nat) {defect : Defect} (hdefect : defect.stops = false) :
    Orderly spare (checkLimit count defect) := by
  unfold Parser.checkLimit
  split
  · exact bind ⟨fun _ => calm _ rfl .done⟩ fun _ => report hdefect
  · exact pure ()

/-- Looking at the next token is no step on the way. -/
theorem peek : Orderly spare peek := ⟨fun _ => calm _ rfl .done⟩

/-- Looking for a kind of token is none either. -/
theorem check (kind : Kind) : Orderly spare (check kind) := ⟨fun _ => calm _ rfl .done⟩

/-- Going past a token is one. -/
theorem advance : Orderly spare advance := ⟨fun {c} _ => calm () rfl c.advance_trail⟩

/-- The rule for taking a token if there is one. -/
theorem take? {kinds : List Kind} {f : Option Token → Parser β}
    (hsome : ∀ t, t.kind ∈ kinds →
      Orderly (spare + if t.kind = .mark .leftBrace then 1 else 0) (f (some t)))
    (hnone : Orderly spare (f none)) : Orderly spare (take? kinds >>= f) := by
  refine ⟨fun {c} hc => ?_⟩
  obtain ⟨t, rest, hrest, ht, hne, heq⟩ | ⟨-, heq⟩ := take?_cases kinds c
  -- The token was ahead, so that the end token is ahead of what follows.
  · rw [bind_of_clean heq, hrest]
    rw [hrest, hasEnd_cons hne] at hc
    exact .pass hne ((hsome t ht).reply (c := ⟨c.last, rest⟩) hc)
  · rw [bind_of_clean heq]
    exact hnone.reply hc

/-- The same where it does not matter whether a brace is taken. -/
theorem takeAny {kinds : List Kind} {f : Option Token → Parser β}
    (hf : ∀ found, Orderly spare (f found)) : Orderly spare (Parser.take? kinds >>= f) :=
  take? (fun t _ => (hf (some t)).mono (Nat.le_add_right _ _)) (hf none)

/-- The rule for a token that has to be there. -/
theorem demand {kind : Kind} (hkind : kind ≠ .eof) {defect : Defect}
    (hdefect : defect.stops = true) {f : Token → Parser β}
    (hf : ∀ t, Orderly (spare + if kind = .mark .leftBrace then 1 else 0) (f t)) :
    Orderly spare (demand kind defect >>= f) := by
  refine ⟨fun {c} hc => ?_⟩
  obtain ⟨t, rest, hrest, ht, heq⟩ | ⟨-, heq⟩ := demand_cases hkind defect c
  · rw [bind_of_clean heq, hrest]
    have hne : t.kind ≠ .eof := ht ▸ hkind
    rw [hrest, hasEnd_cons hne] at hc
    exact .pass hne (ht ▸ (hf t).reply (c := ⟨c.last, rest⟩) hc)
  · show (Parser.bind (Parser.demand kind defect) f c).Orderly c.rest spare
    unfold Parser.bind
    rw [heq]
    exact .fault hdefect .done (by simp [stopping, endErrors])

/-- The rule for a mark that has to be there, where it does not matter whether it is a brace. -/
theorem expect {kind : Kind} (hkind : kind ≠ .eof) (place : String) {f : Token → Parser β}
    (hf : ∀ t, Orderly spare (f t)) : Orderly spare (expect kind place >>= f) :=
  demand hkind rfl fun t => (hf t).mono (Nat.le_add_right _ _)

/-- The rule for a name that has to be there. -/
theorem expectName (thing : String) {f : Token → Parser β} (hf : ∀ t, Orderly spare (f t)) :
    Orderly spare (expectName thing >>= f) :=
  demand (by decide) rfl fun t => (hf t).mono (Nat.le_add_right _ _)

/-- An error that is reported may be one at the end token. -/
theorem recover {p : Parser α} (hp : Orderly 0 p) : Orderly 1 (recover p) := by
  refine ⟨fun {c} hc => ?_⟩
  unfold Parser.recover
  have hreply := hp.reply hc
  generalize p c = r at hreply
  cases hreply with
  | done htrail hcount => exact .done htrail (by omega)
  | @fault defect es c₁ hstops htrail hcount =>
      have hresume := Cursor.resume_trail (htrail.hasEnd hc) defect
      -- What was found inside comes first, then the error that stopped the parser, and then the
      -- tokens that are skipped.
      have hle := hresume.openings_le
      have hone : endErrors [.ofToken c₁.peek defect] ≤ 1 := List.countP_le_length
      have hes : stopping (es ++ [.ofToken c₁.peek defect]) =
          stopping es ++ [.ofToken c₁.peek defect] := by
        rw [stopping_append, stopping_singleton hstops]
      refine .done ?_ ?_
      · rw [hes]
        exact htrail.append hresume
      · rw [hes, endErrors_append]
        omega
  | starved => exact .starved

end Orderly

/-! ### Expressions -/

mutual

/-- Errors in expressions have nothing to spare: an error that stops one of their parsers is handed
on, and none is reported on the way. -/
theorem expression_orderly : ∀ n, Orderly 0 (expression n)
  | 0 => .starve
  | n + 1 => by
    unfold expression
    refine .bind (binary_orderly n binaryLevels) fun target => .takeAny fun equals => ?_
    cases equals with
    | none => exact .pure _
    | some equals =>
        refine .bind (expression_orderly n) fun value => ?_
        split
        · exact .pure _
        -- A target that is no name is reported without a stop.
        · exact .bind (.report rfl) fun _ => .pure _

/-- A ladder of levels hands on the error of its operands. -/
theorem binary_orderly : ∀ n levels, Orderly 0 (binary n levels)
  | 0, _ => .starve
  | n + 1, [] => unary_orderly n
  | n + 1, level :: tighter =>
    .bind (binary_orderly n tighter) fun left => binaryRest_orderly n level tighter left

/-- Operators are passed, and the error of an operand is handed on. -/
theorem binaryRest_orderly : ∀ n level tighter left, Orderly 0 (binaryRest n level tighter left)
  | 0, _, _, _ => .starve
  | n + 1, level, tighter, left => by
    unfold binaryRest
    refine .takeAny fun op => ?_
    cases op with
    | none => exact .pure _
    | some op => exact .bind (binary_orderly n tighter) fun right => binaryRest_orderly n _ _ _

/-- Operators in front, and an operand with its argument lists. -/
theorem unary_orderly : ∀ n, Orderly 0 (unary n)
  | 0 => .starve
  | n + 1 => by
    unfold unary
    refine .takeAny fun op => ?_
    cases op with
    | some op => exact .bind (unary_orderly n) fun operand => .pure _
    | none => exact .bind (primary_orderly n) fun callee => calls_orderly n callee

/-- Argument lists: a parenthesis that is missing is an error where it is missed. -/
theorem calls_orderly : ∀ n callee, Orderly 0 (calls n callee)
  | 0, _ => .starve
  | n + 1, callee => by
    unfold calls
    refine .takeAny fun opening => ?_
    cases opening with
    | none => exact .pure _
    -- What follows the arguments, whether there are any or not.
    | some opening =>
        have hlater : ∀ args, Orderly 0 (expect (.mark .rightParen) "after arguments" >>=
            fun paren => calls n (.call callee paren args)) :=
          fun args => .expect (by decide) _ fun paren => calls_orderly n _
        refine .bind (.check _) fun closes => ?_
        cases closes with
        | true => exact .bind (.pure _) hlater
        | false => exact .bind (arguments_orderly n 0) hlater

/-- Arguments. Too many of them are reported without a stop. -/
theorem arguments_orderly : ∀ n count, Orderly 0 (arguments n count)
  | 0, _ => .starve
  | n + 1, count => by
    unfold arguments
    refine .bind (.checkLimit _ rfl) fun _ => .bind (expression_orderly n) fun arg =>
      .takeAny fun comma => ?_
    cases comma with
    | none => exact .pure _
    | some comma => exact .bind (arguments_orderly n (count + 1)) fun more => .pure _

/-- Where an operand is missing, the token in sight is blamed. -/
theorem primary_orderly : ∀ n, Orderly 0 (primary n)
  | 0 => .starve
  | n + 1 => by
    unfold primary
    refine .bind .peek fun token => ?_
    split
    case h_7 =>
      refine .takeAny fun opening => ?_
      cases opening with
      | none => exact .fail rfl
      | some opening =>
          exact .bind (expression_orderly n) fun inner => .expect (by decide) _ fun _ => .pure _
    case h_8 => exact .fail rfl
    -- Constants and names are single tokens.
    all_goals exact .bind .advance fun _ => .pure _

end

/-! ### Declarations and statements -/

/-- Parameters: a name that is missing is an error where it is missed. -/
theorem parameters_orderly : ∀ n count, Orderly 0 (parameters n count)
  | 0, _ => .starve
  | n + 1, count => by
    unfold parameters
    refine .bind (.checkLimit _ rfl) fun _ => .expectName _ fun param => .takeAny fun comma => ?_
    cases comma with
    | none => exact .pure _
    | some comma => exact .bind (parameters_orderly n (count + 1)) fun more => .pure _

/-- A variable declaration: it may miss its name, its initial value or its semicolon, and the first
of them stops it. -/
theorem variableDeclaration_orderly (n : Nat) : Orderly 0 (variableDeclaration n) := by
  unfold variableDeclaration
  refine .expectName _ fun name => .takeAny fun equals => ?_
  cases equals with
  | none => exact .bind (.pure _) fun init => .expect (by decide) _ fun _ => .pure _
  | some equals =>
      exact .bind (.map _ (expression_orderly n)) fun init => .expect (by decide) _ fun _ => .pure _

/-- An expression with its semicolon. -/
theorem expressionStatement_orderly (n : Nat) : Orderly 0 (expressionStatement n) :=
  .bind (expression_orderly n) fun _ => .expect (by decide) _ fun _ => .pure _

/-- A clause that may be missing. -/
theorem expressionBefore_orderly (n : Nat) (kind : Kind) : Orderly 0 (expressionBefore n kind) := by
  refine .bind (.check kind) fun stops => ?_
  cases stops with
  | true => exact .pure _
  | false => exact .map _ (expression_orderly n)

/-- A `return`, with a result or without one. -/
theorem returnStatement_orderly (n : Nat) (word : Token) : Orderly 0 (returnStatement n word) := by
  have heq : returnStatement n word = _ := funext (returnStatement_eq n word)
  rw [heq]
  exact .bind (expressionBefore_orderly n _) fun result => .expect (by decide) _ fun _ => .pure _

/-- The first clause of a `for`. -/
theorem forInitializer_orderly (n : Nat) : Orderly 0 (forInitializer n) := by
  unfold forInitializer
  refine .takeAny fun semicolon => ?_
  cases semicolon with
  | some semicolon => exact .pure _
  | none =>
      refine .takeAny fun word => ?_
      cases word with
      | some word => exact .map _ (variableDeclaration_orderly n)
      | none => exact .map _ (expressionStatement_orderly n)

/-- At the end no declaration is left. -/
theorem declarations_atEnd {c : Cursor} (hend : c.atEnd = true) (n : Nat) (inBlock : Bool) :
    declarations (n + 1) inBlock c = .done [] [] c := by
  unfold declarations
  rw [bind_of_clean (atEnd_apply c), hend, bind_of_clean (check_apply _ c)]
  rfl

/-- Declarations have one error to spare, however many they are: behind an error at the end token
there is no other declaration. -/
theorem declarations_orderly_of {n : Nat} (hdeclaration : Orderly 1 (declaration n))
    {inBlock : Bool} (hlater : Orderly 1 (declarations n inBlock)) :
    Orderly 1 (declarations (n + 1) inBlock) := by
  refine ⟨fun {c} hc => ?_⟩
  unfold declarations
  rw [bind_of_clean (atEnd_apply c), bind_of_clean (check_apply _ c)]
  by_cases hstop : (c.atEnd || (inBlock && c.check (.mark .rightBrace))) = true
  · rw [if_pos hstop]
    -- Without a declaration nothing is blamed.
    exact (Orderly.pure []).reply hc
  · rw [if_neg hstop]
    show (Parser.bind (declaration n) _ c).Orderly c.rest 1
    unfold Parser.bind
    have hreply := hdeclaration.reply hc
    generalize declaration n c = r at hreply
    cases hreply with
    | @done first es c₁ htrail hcount =>
        have hmore : Orderly 1 (declarations n inBlock >>= fun more =>
            Pure.pure (first.toList ++ more)) := .bindCalm hlater fun more => .pure _
        -- At the end token the first declaration may have used what there is to spare, and the list
        -- stops there.
        cases hend : c₁.atEnd with
        | true =>
            have hnone : Orderly 0 (Pure.pure (first.toList ++ []) : Parser (List Stmt)) := .pure _
            cases n with
            | zero => exact .starved
            | succ n =>
                show (Reply.after es ((declarations (n + 1) inBlock >>= fun more =>
                  Pure.pure (first.toList ++ more)) c₁)).Orderly c.rest 1
                rw [bind_of_clean (declarations_atEnd hend n inBlock)]
                exact (hnone.reply (htrail.hasEnd hc)).after htrail hcount
        -- Before the end token it has used nothing of it, so that all of it is left for the other
        -- declarations.
        | false =>
            have hbefore : endErrors (stopping es) = 0 := by
              refine htrail.endErrors_eq_zero fun t ht heof => ?_
              obtain ⟨last, rest⟩ := c₁
              obtain ⟨rest, rfl⟩ := List.head?_eq_some_iff.1 ht
              simp [Cursor.atEnd, Token.is, heof] at hend
            have hle := htrail.openings_le
            have hfirst : endErrors (stopping es) + openings c₁.rest ≤ openings c.rest + 0 := by
              omega
            exact (hmore.reply (htrail.hasEnd hc)).after htrail hfirst
    | fault hstops htrail hcount => exact .fault hstops htrail hcount
    | starved => exact .starved

mutual

/-- A declaration reports what stopped it. So this is where there is one error to spare. -/
theorem declaration_orderly : ∀ n, Orderly 1 (declaration n)
  | 0 => .starve
  | n + 1 => by
    rw [declaration_succ]
    refine .recover (.takeAny fun word => ?_)
    cases word with
    | none => exact statement_orderly n
    | some word =>
        dsimp only
        split
        · exact functionDeclaration_orderly n
        · exact variableDeclaration_orderly n

/-- Declarations have one error to spare, by the step from one list to the next shorter supply. -/
theorem declarations_orderly : ∀ n inBlock, Orderly 1 (declarations n inBlock)
  | 0, _ => .starve
  | n + 1, inBlock =>
    declarations_orderly_of (declaration_orderly n) (declarations_orderly n inBlock)

/-- A block has one error to spare behind its opening brace. -/
theorem block_orderly : ∀ n, Orderly 1 (block n)
  | 0 => .starve
  | n + 1 => .bindCalm (declarations_orderly n true) fun _ => .expect (by decide) _ fun _ => .pure _

/-- A function has nothing to spare: what its body may report at the end token is paid for by the
brace in front of it. -/
theorem functionDeclaration_orderly : ∀ n, Orderly 0 (functionDeclaration n)
  | 0 => .starve
  | n + 1 => by
    unfold functionDeclaration
    refine .expectName _ fun name => .expect (by decide) _ fun _ => ?_
    refine .bind (.check _) fun closes => ?_
    -- The brace in front of the body pays for what the block has to spare.
    have hlater : ∀ params, Orderly 0 (expect (.mark .rightParen) "after parameters" >>= fun _ =>
        expect (.mark .leftBrace) "before function body" >>= fun _ =>
          block n >>= fun body => pure (Stmt.function name params body)) :=
      fun params => .expect (by decide) _ fun _ => .demand (by decide) rfl fun _ =>
        .bindCalm (block_orderly n) fun body => .pure _
    cases closes with
    | true => exact .bind (.pure _) hlater
    | false => exact .bind (parameters_orderly n 0) hlater

/-- Nor has a statement. Of the words that open one only the brace leads to declarations, and it
pays for them. -/
theorem statement_orderly : ∀ n, Orderly 0 (statement n)
  | 0 => .starve
  | n + 1 => by
    rw [statement_succ]
    -- Without such a word it is an expression, and with one the word decides.
    refine .take? (fun word hword => ?_) (expressionStatement_orderly n)
    show Orderly _ (opened n word)
    obtain ⟨hkind, heq⟩ | ⟨hkind, heq⟩ | ⟨hkind, heq⟩ | ⟨hkind, heq⟩ | ⟨hkind, heq⟩ :=
      opened_cases n hword
    · rw [heq, hkind]
      exact forStatement_orderly n
    · rw [heq, hkind]
      exact ifStatement_orderly n
    · rw [heq, hkind]
      exact returnStatement_orderly n word
    · rw [heq, hkind]
      exact whileStatement_orderly n
    · rw [heq, hkind]
      exact .map _ (block_orderly n)

/-- A `for` loop hands on the error of its clauses or of its body. -/
theorem forStatement_orderly : ∀ n, Orderly 0 (forStatement n)
  | 0 => .starve
  | n + 1 =>
    .expect (by decide) _ fun _ => .bind (forInitializer_orderly n) fun _ =>
      .bind (expressionBefore_orderly n _) fun _ => .expect (by decide) _ fun _ =>
        .bind (expressionBefore_orderly n _) fun _ => .expect (by decide) _ fun _ =>
          .bind (statement_orderly n) fun _ => .pure _

/-- An `if` hands on the error of its condition or of a branch. -/
theorem ifStatement_orderly : ∀ n, Orderly 0 (ifStatement n)
  | 0 => .starve
  | n + 1 => by
    unfold ifStatement
    refine .expect (by decide) _ fun _ => .bind (expression_orderly n) fun condition =>
      .expect (by decide) _ fun _ => .bind (statement_orderly n) fun yes => .takeAny fun word => ?_
    cases word with
    | none => exact .pure _
    | some word => exact .bind (statement_orderly n) fun no => .pure _

/-- A `while` loop hands on the error of its condition or of its body. -/
theorem whileStatement_orderly : ∀ n, Orderly 0 (whileStatement n)
  | 0 => .starve
  | n + 1 =>
    .expect (by decide) _ fun _ => .bind (expression_orderly n) fun _ =>
      .expect (by decide) _ fun _ => .bind (statement_orderly n) fun _ => .pure _

end

end Parser

/-! ### Places -/

/-- The error carries the line and the location of the token at this place. -/
def StaticError.IsAt (tokens : List Token) (place : Nat) (e : StaticError) : Prop :=
  ∃ t, tokens[place]? = some t ∧ e = .ofToken t e.defect

/-- The place of the first end token. -/
def endPlace (tokens : List Token) : Nat := tokens.findIdx (·.is .eof)

/-- These places never go back and are not behind the place `limit`. Before it, none of them comes
twice. -/
structure InOrder (limit : Nat) (places : List Nat) : Prop where
  order : places.Pairwise fun p q => p ≤ q ∧ (p < limit → p < q)
  bound : ∀ p ∈ places, p ≤ limit

/-- Places in order stay in order behind one more token. -/
theorem InOrder.shift {limit : Nat} {places : List Nat} (h : InOrder limit places) :
    InOrder (limit + 1) (places.map (· + 1)) where
  order := by
    rw [List.pairwise_map]
    refine h.order.imp fun {p q} hpq => ?_
    omega
  bound := by
    intro p hp
    obtain ⟨q, hq, rfl⟩ := List.mem_map.1 hp
    have hle := h.bound q hq
    omega

/-- A token in front moves the first end token by one place. -/
theorem endPlace_cons {t : Token} (ht : t.kind ≠ .eof) (ts : List Token) :
    endPlace (t :: ts) = endPlace ts + 1 := by
  simp [endPlace, List.findIdx_cons, Token.is, ht]

/-- An end token in front is the first one. -/
theorem endPlace_end {t : Token} (ht : t.kind = .eof) (ts : List Token) :
    endPlace (t :: ts) = 0 := by
  simp [endPlace, List.findIdx_cons, Token.is, ht]

/-- The braces that are counted stand before the first end token. -/
theorem openings_eq (ts : List Token) :
    openings ts = (ts.take (endPlace ts)).countP (·.is (.mark .leftBrace)) := by
  -- Along the list, up to the first end token.
  induction ts with
  | nil => rfl
  | cons t ts ih =>
      by_cases ht : t.kind = .eof
      · rw [endPlace_end ht]
        simp [openings, ht]
      · rw [endPlace_cons ht, List.take_succ_cons, List.countP_cons, ← ih]
        simp only [openings, ht, if_false, Token.is, decide_eq_true_eq]
        omega

/-- The errors of a list keep their tokens behind one more token, one place further on. -/
theorem StaticError.isAt_shift {t : Token} {ts : List Token} {places : List Nat}
    {es : List StaticError} (h : List.Forall₂ (IsAt ts) places es) :
    List.Forall₂ (IsAt (t :: ts)) (places.map (· + 1)) es := by
  rw [List.forall₂_map_left_iff]
  exact h.imp fun place e he => he

/-- The errors of a trail have places in their order. -/
theorem Trail.exists_places {ts us : List Token} {es : List StaticError} (h : Trail ts es us) :
    ∃ places, List.Forall₂ (StaticError.IsAt ts) places es ∧ InOrder (endPlace ts) places := by
  -- Along the trail: each token that is passed moves all later places by one.
  induction h with
  | done => exact ⟨[], .nil, .nil, nofun⟩
  | pass ht _ ih =>
      obtain ⟨places, hat, horder⟩ := ih
      rw [endPlace_cons ht]
      exact ⟨places.map (· + 1), StaticError.isAt_shift hat, horder.shift⟩
  | blame defect ht _ ih =>
      obtain ⟨places, hat, horder⟩ := ih
      rw [endPlace_cons ht]
      -- All later errors are at least one token further on.
      refine ⟨0 :: places.map (· + 1), .cons ⟨_, rfl, rfl⟩ (StaticError.isAt_shift hat), ?_, ?_⟩
      · refine List.pairwise_cons.2 ⟨fun q hq => ?_, horder.shift.order⟩
        obtain ⟨place, -, rfl⟩ := List.mem_map.1 hq
        omega
      · exact List.forall_mem_cons.2 ⟨Nat.zero_le _, horder.shift.bound⟩
  | blameEnd defect ht _ ih =>
      obtain ⟨places, hat, horder⟩ := ih
      rw [endPlace_end ht] at horder ⊢
      -- At the end token the way goes on from the same place, and this is the one that may come
      -- again.
      refine ⟨0 :: places, .cons ⟨_, rfl, rfl⟩ hat, ?_, ?_⟩
      · refine List.pairwise_cons.2 ⟨fun q _ => ?_, horder.order⟩
        omega
      · exact List.forall_mem_cons.2 ⟨Nat.le_refl _, horder.bound⟩

/-- **Errors that stop a parser do not pile up.** Take a list of tokens with an end token, and of
the errors those for which a parser stopped: a token, a name or an expression that is missing. They
have places in the list, in the order in which they are reported. Each error carries the line and
the location of the token at its place. The places never go back, none is behind the first end
token, and before it no place comes twice. At the end token there is at most one error more than
there are opening braces before it. -/
theorem stopping_errors_advance (tokens : List Token) (hend : ∃ t ∈ tokens, t.kind = .eof) :
    let errors := (parse tokens).errors.filter (·.defect.stops)
    let limit := tokens.findIdx (·.is .eof)
    (∃ places : List Nat,
      List.Forall₂ (fun place e => ∃ t, tokens[place]? = some t ∧ e = .ofToken t e.defect)
        places errors ∧
      places.Pairwise (fun p q => p ≤ q ∧ (p < limit → p < q)) ∧ ∀ p ∈ places, p ≤ limit) ∧
    errors.countP (·.location = .atEnd) ≤
      (tokens.take limit).countP (·.is (.mark .leftBrace)) + 1 := by
  intro errors limit
  have hnonempty : tokens ≠ [] := by
    rintro rfl
    obtain ⟨t, ht, -⟩ := hend
    cases ht
  -- There are steps enough, so the reply is one that keeps order.
  have hlast := List.getLast?_eq_some_getLast hnonempty
  obtain ⟨c, hc⟩ := parse_eq_of_steps hlast (Nat.le_refl _)
  have hreply := (Parser.declarations_orderly (parseSteps tokens) false).reply
    (c := ⟨tokens.getLast hnonempty, tokens⟩) hend
  rw [hc] at hreply
  cases hreply with
  | done htrail hcount =>
      obtain ⟨places, hat, horder⟩ := htrail.exists_places
      refine ⟨⟨places, hat, horder.order, horder.bound⟩, ?_⟩
      rw [openings_eq tokens] at hcount
      exact Nat.le_trans (Nat.le_add_right _ _) hcount

/-- A name is missing in front of the semicolon, and then two blocks and an expression are broken
off. The two braces allow for three errors at the end token, and there are three. -/
theorem stopping_errors_advance_blocks :
    let word (kind : Kind) (name : String) : Token := ⟨kind, ⟨0, 0, name⟩, none, 1⟩
    let opening := word (.mark .leftBrace) "\x7b"
    let eof := { word .eof "" with line := 2 }
    let tokens := [word (.keyword .varWord) "var", word (.mark .semicolon) ";", opening, opening,
      word .identifier "a", eof]
    let errors := (parse tokens).errors.filter (·.defect.stops)
    errors.map (·.location) = [.at ";", .atEnd, .atEnd, .atEnd] ∧
      (∃ places : List Nat, List.Forall₂ (fun place e => ∃ t, tokens[place]? = some t ∧
        e = .ofToken t e.defect) places errors ∧
        places.Pairwise (fun p q => p ≤ q ∧ (p < 5 → p < q)) ∧ ∀ p ∈ places, p ≤ 5) ∧
      errors.countP (·.location = .atEnd) ≤ 2 + 1 := by
  intro word opening eof tokens errors
  have hlocations : errors.map (·.location) = [.at ";", .atEnd, .atEnd, .atEnd] := by
    decide +kernel
  have hadvance := stopping_errors_advance tokens ⟨eof, by simp [tokens], rfl⟩
  exact ⟨hlocations, hadvance.1, hadvance.2⟩

end Scriptlet
