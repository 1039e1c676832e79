import Scriptlet.Proofs.Lexical.Scan
import Scriptlet.Proofs.Parser.Stretch

/-!
# `Scriptlet.Proofs.Parser.Recast`: other tokens in the place of the old ones

A tree keeps some of the tokens that spell it. `mapTokens` puts other tokens in their place, and
`Expr.tokens` and `Stmt.tokens` list them.

The grammar looks at the kinds of tokens and at the constants they carry, and at nothing else
(`Program.mapTokens`). So if both stay the same, the new tokens spell the tree with the new
tokens in it. The tree may even be changed in another way than the tokens, as long as there is
no difference at the tokens that it keeps; numbers and texts are never among them.
-/

set_option autoImplicit false

namespace Scriptlet

/-! ### Trees with other tokens -/

mutual

/-- The expression with each token replaced. -/
def Expr.mapTokens (f : Token → Token) : Expr → Expr
  | .literal value => .literal value
  | .group inner => .group (inner.mapTokens f)
  | .unary op operand => .unary (f op) (operand.mapTokens f)
  | .binary left op right => .binary (left.mapTokens f) (f op) (right.mapTokens f)
  | .logical left op right => .logical (left.mapTokens f) (f op) (right.mapTokens f)
  | .get name => .get (f name)
  | .set name value => .set (f name) (value.mapTokens f)
  | .call callee paren args =>
    .call (callee.mapTokens f) (f paren) (Expr.mapTokensAll f args)

/-- The expressions with each token replaced. -/
def Expr.mapTokensAll (f : Token → Token) : List Expr → List Expr
  | [] => []
  | e :: es => e.mapTokens f :: Expr.mapTokensAll f es

end

mutual

/-- The tokens that an expression keeps. -/
def Expr.tokens : Expr → List Token
  | .literal _ => []
  | .group inner => inner.tokens
  | .unary op operand => op :: operand.tokens
  | .binary left op right | .logical left op right => op :: (left.tokens ++ right.tokens)
  | .get name => [name]
  | .set name value => name :: value.tokens
  | .call callee paren args => paren :: (callee.tokens ++ Expr.tokensAll args)

/-- The tokens that expressions keep. -/
def Expr.tokensAll : List Expr → List Token
  | [] => []
  | e :: es => e.tokens ++ Expr.tokensAll es

end

mutual

/-- The statement with each token replaced. -/
def Stmt.mapTokens (f : Token → Token) : Stmt → Stmt
  | .expression value => .expression (value.mapTokens f)
  | .declare name init => .declare (f name) (init.map (·.mapTokens f))
  | .block body => .block (Stmt.mapTokensAll f body)
  | .branch condition yes no =>
    .branch (condition.mapTokens f) (yes.mapTokens f) (Stmt.mapTokensOption f no)
  | .loop condition body => .loop (condition.mapTokens f) (body.mapTokens f)
  | .function name params body =>
    .function (f name) (params.map f) (Stmt.mapTokensAll f body)
  | .giveBack word result => .giveBack (f word) (result.map (·.mapTokens f))

/-- The statement, if there is one, with each token replaced. -/
def Stmt.mapTokensOption (f : Token → Token) : Option Stmt → Option Stmt
  | none => none
  | some s => some (s.mapTokens f)

/-- The statements with each token replaced. -/
def Stmt.mapTokensAll (f : Token → Token) : List Stmt → List Stmt
  | [] => []
  | s :: ss => s.mapTokens f :: Stmt.mapTokensAll f ss

end

mutual

/-- The tokens that a statement keeps. -/
def Stmt.tokens : Stmt → List Token
  | .expression value => value.tokens
  | .declare name init => name :: init.toList.flatMap Expr.tokens
  | .block body => Stmt.tokensAll body
  | .branch condition yes no => condition.tokens ++ (yes.tokens ++ Stmt.tokensOption no)
  | .loop condition body => condition.tokens ++ body.tokens
  | .function name params body => name :: (params ++ Stmt.tokensAll body)
  | .giveBack word result => word :: result.toList.flatMap Expr.tokens

/-- The tokens that a statement keeps, if there is one. -/
def Stmt.tokensOption : Option Stmt → List Token
  | none => []
  | some s => s.tokens

/-- The tokens that statements keep. -/
def Stmt.tokensAll : List Stmt → List Token
  | [] => []
  | s :: ss => s.tokens ++ Stmt.tokensAll ss

end

/-- Replacing tokens in a row of expressions is replacing them in each. -/
theorem Expr.mapTokensAll_eq_map (f : Token → Token) :
    ∀ es : List Expr, Expr.mapTokensAll f es = es.map (·.mapTokens f)
  | [] => rfl
  | e :: es => congrArg (e.mapTokens f :: ·) (mapTokensAll_eq_map f es)

section Congr

variable {f g : Token → Token}

mutual

/-- Only the tokens that are kept matter. -/
theorem Expr.mapTokens_congr : ∀ {e : Expr}, (∀ t ∈ e.tokens, f t = g t) →
    e.mapTokens f = e.mapTokens g
  | .literal _, _ => rfl
  | .group inner, h => congrArg Expr.group (mapTokens_congr h)
  | .unary op operand, h => by
    obtain ⟨hop, hoperand⟩ := List.forall_mem_cons.1 h
    simp only [mapTokens, hop, mapTokens_congr hoperand]
  -- The tokens of an operator are its own and those of its operands, and the changes agree on all
  -- of them.
  | .binary left op right, h => by
    simp only [tokens, List.forall_mem_cons, List.forall_mem_append] at h
    simp only [mapTokens, h.1, mapTokens_congr h.2.1, mapTokens_congr h.2.2]
  | .logical left op right, h => by
    simp only [tokens, List.forall_mem_cons, List.forall_mem_append] at h
    simp only [mapTokens, h.1, mapTokens_congr h.2.1, mapTokens_congr h.2.2]
  | .get name, h => congrArg Expr.get (h name List.mem_cons_self)
  | .set name value, h => by
    obtain ⟨hname, hvalue⟩ := List.forall_mem_cons.1 h
    simp only [mapTokens, hname, mapTokens_congr hvalue]
  | .call callee paren args, h => by
    simp only [tokens, List.forall_mem_cons, List.forall_mem_append] at h
    simp only [mapTokens, h.1, mapTokens_congr h.2.1, mapTokensAll_congr h.2.2]

/-- The same for a row of expressions. -/
theorem Expr.mapTokensAll_congr : ∀ {es : List Expr}, (∀ t ∈ Expr.tokensAll es, f t = g t) →
    Expr.mapTokensAll f es = Expr.mapTokensAll g es
  | [], _ => rfl
  | e :: es, h => by
    obtain ⟨he, hes⟩ := List.forall_mem_append.1 h
    simp only [mapTokensAll, mapTokens_congr he, mapTokensAll_congr hes]

end

/-- The same for an expression that may be missing. -/
theorem Expr.mapTokensOption_congr {e : Option Expr}
    (h : ∀ t ∈ e.toList.flatMap Expr.tokens, f t = g t) :
    e.map (·.mapTokens f) = e.map (·.mapTokens g) := by
  cases e with
  | none => rfl
  | some e =>
      rw [Option.toList_some, List.flatMap_singleton] at h
      exact congrArg some (mapTokens_congr h)

mutual

/-- The same for a statement: two replacements that agree on its tokens make the same tree. -/
theorem Stmt.mapTokens_congr : ∀ {s : Stmt}, (∀ t ∈ s.tokens, f t = g t) →
    s.mapTokens f = s.mapTokens g
  | .expression value, h => congrArg Stmt.expression (Expr.mapTokens_congr h)
  | .declare name init, h => by
    obtain ⟨hname, hinit⟩ := List.forall_mem_cons.1 h
    simp only [mapTokens, hname, Expr.mapTokensOption_congr hinit]
  | .block body, h => congrArg Stmt.block (mapTokensAll_congr h)
  | .branch condition yes no, h => by
    simp only [tokens, List.forall_mem_append] at h
    simp only [mapTokens, Expr.mapTokens_congr h.1, mapTokens_congr h.2.1,
      mapTokensOption_congr h.2.2]
  | .loop condition body, h => by
    simp only [tokens, List.forall_mem_append] at h
    simp only [mapTokens, Expr.mapTokens_congr h.1, mapTokens_congr h.2]
  | .function name params body, h => by
    simp only [tokens, List.forall_mem_cons, List.forall_mem_append] at h
    simp only [mapTokens, h.1, List.map_congr_left h.2.1, mapTokensAll_congr h.2.2]
  | .giveBack word result, h => by
    obtain ⟨hword, hresult⟩ := List.forall_mem_cons.1 h
    simp only [mapTokens, hword, Expr.mapTokensOption_congr hresult]

/-- The same for a statement that may be missing. -/
theorem Stmt.mapTokensOption_congr : ∀ {s : Option Stmt},
    (∀ t ∈ Stmt.tokensOption s, f t = g t) → Stmt.mapTokensOption f s = Stmt.mapTokensOption g s
  | none, _ => rfl
  | some _, h => congrArg some (mapTokens_congr h)

/-- The same for a row of statements. -/
theorem Stmt.mapTokensAll_congr : ∀ {ss : List Stmt}, (∀ t ∈ Stmt.tokensAll ss, f t = g t) →
    Stmt.mapTokensAll f ss = Stmt.mapTokensAll g ss
  | [], _ => rfl
  | s :: ss, h => by
    obtain ⟨hs, hss⟩ := List.forall_mem_append.1 h
    simp only [mapTokensAll, mapTokens_congr hs, mapTokensAll_congr hss]

end

end Congr

/-! ### The grammar and other tokens -/

namespace Grammar

/-- The tokens change in nothing that the grammar looks at. -/
structure Faithful (f : Token → Token) : Prop where
  kind : ∀ t, (f t).kind = t.kind
  literal : ∀ t, (f t).literal = t.literal

/-- There is no difference at tokens that a tree can keep. -/
def Agree (f g : Token → Token) (ts : List Token) : Prop :=
  ∀ t ∈ ts, t.kind.isConstant = false → f t = g t

section MapTokens

variable {f g : Token → Token}

/-- Two replacements agree on a list if they do on its first token and on the others. -/
theorem agree_cons {t : Token} {ts : List Token} : Agree f g (t :: ts) ↔
    (t.kind.isConstant = false → f t = g t) ∧ Agree f g ts :=
  List.forall_mem_cons

/-- They agree on two lists in a row if they do on each. -/
theorem agree_append {ts us : List Token} :
    Agree f g (ts ++ us) ↔ Agree f g ts ∧ Agree f g us :=
  List.forall_mem_append

/-- They agree on a stretch of a list on which they agree. -/
theorem Agree.mono {ts us : List Token} (h : Agree f g ts) (hus : us <:+: ts) : Agree f g us :=
  fun t ht => h t (hus.subset ht)

/-- No constant is an operator, so that a tree keeps its operators. -/
theorem Rung.isConstant_operator {r : Rung} {kind : Kind} (h : kind ∈ r.operators) :
    kind.isConstant = false := by
  have hall : r.operators.all (!·.isConstant) = true := by cases r <;> rfl
  simpa using List.all_eq_true.1 hall kind h

variable (hf : Faithful f)

include hf

/-- What comes first is of the same kind after the replacement. -/
theorem Faithful.startsWith_map {kinds : List Kind} {ts : List Token} :
    StartsWith kinds (ts.map f) ↔ StartsWith kinds ts := by
  cases ts with
  | nil => simp
  | cons t ts => rw [List.map_cons, startsWith_cons, startsWith_cons, hf.kind]

/-- A token keeps its kind. -/
theorem Faithful.kind_eq {t : Token} {kind : Kind} (h : t.kind = kind) : (f t).kind = kind :=
  (hf.kind t).trans h

/-- A token of one of several kinds stays one of them. -/
theorem Faithful.kind_mem {t : Token} {kinds : List Kind} (h : t.kind ∈ kinds) :
    (f t).kind ∈ kinds := by
  rwa [hf.kind]

/-- The commas of a list stay commas. -/
theorem CommaList.mapTokens {items : List (List Token)} {ts : List Token}
    (h : CommaList items ts) : CommaList (items.map (List.map f)) (ts.map f) := by
  induction h with
  | none => exact .none
  | one ts => exact .one _
  | more hcomma _ ih =>
      rw [List.map_append, List.map_cons]
      exact .more (hf.kind_eq hcomma) ih

/-- New tokens spell the expression with the new tokens in it, on the same rung. -/
theorem Derives.mapTokens {r : Rung} {ts : List Token} {e : Expr} (h : Derives r ts e)
    (hagree : Agree f g ts) : Derives r (ts.map f) (e.mapTokens g) := by
  induction h with
  | falsehood ht => exact .falsehood (hf.kind_eq ht)
  | truth ht => exact .truth (hf.kind_eq ht)
  | nothing ht => exact .nothing (hf.kind_eq ht)
  | @constant t ht =>
      -- The tree has the value and not the token, so nothing is known of `g` here.
      have hconstant : Derives .primary [f t] (.literal ((f t).literal.getD .nil)) :=
        .constant (by rwa [hf.kind])
      rwa [hf.literal] at hconstant
  | @name t ht =>
      have hname := (agree_cons.1 hagree).1 (congrArg Kind.isConstant ht)
      rw [Expr.mapTokens, ← hname]
      exact .name (hf.kind_eq ht)
  | @group opening closing ts e hopening _ hclosing ih =>
      simp only [agree_cons, agree_append] at hagree
      simp only [List.map_cons, List.map_append, List.map_nil, Expr.mapTokens]
      exact .group (hf.kind_eq hopening) (ih hagree.2.1) (hf.kind_eq hclosing)
  | @call opening closing fs ts callee args _ hopening hcommas _ hsize hclosing ihf ihargs =>
      simp only [agree_cons, agree_append] at hagree
      obtain ⟨hfs, -, hts, hparen, -⟩ := hagree
      have hparen := hparen (congrArg Kind.isConstant hclosing)
      -- The arguments are changed one by one, tokens and tree together.
      have hcommas' := hcommas.mapTokens hf
      have hargs : Expr.mapTokensAll g (args.map (·.2)) =
          (args.map fun arg => (arg.1.map f, arg.2.mapTokens g)).map (·.2) := by
        rw [Expr.mapTokensAll_eq_map, List.map_map, List.map_map]
        rfl
      have hitems : (args.map (·.1)).map (List.map f) =
          (args.map fun arg => (arg.1.map f, arg.2.mapTokens g)).map (·.1) := by
        rw [List.map_map, List.map_map]
        rfl
      rw [hitems] at hcommas'
      simp only [List.map_append, List.map_cons, List.map_nil, Expr.mapTokens]
      rw [hargs, ← hparen]
      refine .call (ihf hfs) (hf.kind_eq hopening) hcommas' ?_ (by simpa using hsize)
        (hf.kind_eq hclosing)
      intro arg' harg'
      obtain ⟨arg, harg, rfl⟩ := List.mem_map.1 harg'
      have hstretch := hcommas.infix_of_mem (List.mem_map_of_mem harg)
      exact ihargs arg harg (hts.mono hstretch)
  | @unary op ts e hop _ ih =>
      obtain ⟨hsign, hts⟩ := agree_cons.1 hagree
      have hsign := hsign (by simp at hop; rcases hop with hop | hop <;> rw [hop] <;> rfl)
      rw [List.map_cons, Expr.mapTokens, ← hsign]
      exact .unary (hf.kind_mem hop) (ih hts)
  | @logical r op ls rs a b hr _ hop _ iha ihb =>
      simp only [agree_cons, agree_append] at hagree
      obtain ⟨hls, hsign, hrs⟩ := hagree
      rw [List.map_append, List.map_cons, Expr.mapTokens, ← hsign (Rung.isConstant_operator hop)]
      exact .logical hr (iha hls) (hf.kind_mem hop) (ihb hrs)
  | @binary r op ls rs a b hr _ hop _ iha ihb =>
      simp only [agree_cons, agree_append] at hagree
      obtain ⟨hls, hsign, hrs⟩ := hagree
      rw [List.map_append, List.map_cons, Expr.mapTokens, ← hsign (Rung.isConstant_operator hop)]
      exact .binary hr (iha hls) (hf.kind_mem hop) (ihb hrs)
  | @assign name equals ts e hname hequals _ ih =>
      simp only [agree_cons] at hagree
      obtain ⟨hsame, -, hts⟩ := hagree
      rw [List.map_cons, List.map_cons, Expr.mapTokens, ← hsame (congrArg Kind.isConstant hname)]
      exact .assign (hf.kind_eq hname) (hf.kind_eq hequals) (ih hts)
  | lift _ ih => exact .lift (ih hagree)

/-- The same for a clause that may be missing. -/
theorem Clause.mapTokens {ts : List Token} {e : Option Expr} (h : Clause ts e)
    (hagree : Agree f g ts) : Clause (ts.map f) (e.map (·.mapTokens g)) := by
  cases h with
  | absent => exact .absent
  | present he => exact .present (he.mapTokens hf hagree)

/-- The same for a variable declaration behind its word. -/
theorem Binding.mapTokens {ts : List Token} {s : Stmt} (h : Binding ts s)
    (hagree : Agree f g ts) : Binding (ts.map f) (s.mapTokens g) := by
  cases h with
  | bare hname hsemicolon =>
      have hsame := (agree_cons.1 hagree).1 (congrArg Kind.isConstant hname)
      rw [Stmt.mapTokens, ← hsame]
      exact .bare (hf.kind_eq hname) (hf.kind_eq hsemicolon)
  | valued hname hequals he hsemicolon =>
      simp only [agree_cons, agree_append] at hagree
      obtain ⟨hsame, -, hts, -⟩ := hagree
      simp only [List.map_cons, List.map_append, List.map_nil]
      rw [Stmt.mapTokens, ← hsame (congrArg Kind.isConstant hname)]
      exact .valued (hf.kind_eq hname) (hf.kind_eq hequals) (he.mapTokens hf hts)
        (hf.kind_eq hsemicolon)

/-- The same for the first clause of a `for`. -/
theorem Initializer.mapTokens {ts : List Token} {init : Option Stmt} (h : Initializer ts init)
    (hagree : Agree f g ts) : Initializer (ts.map f) (init.map (·.mapTokens g)) := by
  cases h with
  | absent hsemicolon => exact .absent (hf.kind_eq hsemicolon)
  | binding hword hbinding =>
      exact .binding (hf.kind_eq hword) (hbinding.mapTokens hf (agree_cons.1 hagree).2)
  | expression he hsemicolon =>
      rw [List.map_append]
      exact .expression (he.mapTokens hf (agree_append.1 hagree).1) (hf.kind_eq hsemicolon)

end MapTokens

section Statements

variable {f g : Token → Token}

/-- Replacing tokens in the tree of a `for` loop is replacing them in its parts, each of which
occurs once. -/
theorem mapTokens_forTree (init : Option Stmt) (condition increment : Option Expr) (body : Stmt) :
    (forTree init condition increment body).mapTokens g =
      forTree (init.map (·.mapTokens g)) (condition.map (·.mapTokens g))
        (increment.map (·.mapTokens g)) (body.mapTokens g) := by
  cases init <;> cases condition <;> cases increment <;> rfl

mutual

/-- The same for a declaration. The tokens behind it are replaced as well, as the grammar looks at
the first of them. -/
theorem Declaration.mapTokens (hf : Faithful f) : ∀ {ts rest : List Token} {s : Stmt},
    Declaration ts rest s → Agree f g ts →
    Declaration (ts.map f) (rest.map f) (s.mapTokens g)
  | _, _, _, @Declaration.function _ _ _ _ _ _ params ps _ _ _ hword hname hopening hcommas hnames
      hsize hclosing hleft hbody hright, hagree => by
    simp only [agree_cons, agree_append] at hagree
    obtain ⟨-, hsame, -, hps, -, -, hts, -, -⟩ := hagree
    have hcommas' := hcommas.mapTokens hf
    have hitems : (params.map fun p => [p]).map (List.map f) =
        (params.map f).map fun p => [p] := by
      rw [List.map_map, List.map_map]
      rfl
    have hparams : params.map g = params.map f := by
      -- Parameters are names, and names are among the tokens that a tree can keep.
      refine List.map_congr_left fun p hp => ?_
      have hstretch := hcommas.infix_of_mem (List.mem_map_of_mem hp)
      exact (hps p (hstretch.subset List.mem_cons_self)
        (congrArg Kind.isConstant (hnames p hp))).symm
    rw [hitems] at hcommas'
    simp only [List.map_cons, List.map_append, List.map_nil, Stmt.mapTokens]
    rw [hparams, ← hsame (congrArg Kind.isConstant hname)]
    refine .function (hf.kind_eq hword) (hf.kind_eq hname) (hf.kind_eq hopening) hcommas' ?_
      (by simpa using hsize) (hf.kind_eq hclosing) (hf.kind_eq hleft) (hbody.mapTokens hf hts)
      (hf.kind_eq hright)
    intro p' hp'
    obtain ⟨p, hp, rfl⟩ := List.mem_map.1 hp'
    exact hf.kind_eq (hnames p hp)
  | _, _, _, .binding hword hbinding, hagree =>
    .binding (hf.kind_eq hword) (hbinding.mapTokens hf (agree_cons.1 hagree).2)
  | _, _, _, .statement hs, hagree => .statement (hs.mapTokens hf hagree)

/-- The same for a statement. -/
theorem Statement.mapTokens (hf : Faithful f) : ∀ {ts rest : List Token} {s : Stmt},
    Statement ts rest s → Agree f g ts →
    Statement (ts.map f) (rest.map f) (s.mapTokens g)
  -- Each rule asks for kinds only, and these are kept. So the same rule spells the changed tokens.
  | _, _, _, .expression he hsemicolon, hagree => by
    rw [List.map_append]
    exact .expression (he.mapTokens hf (agree_append.1 hagree).1) (hf.kind_eq hsemicolon)
  | _, _, _, .block hleft hbody hright, hagree => by
    simp only [agree_cons, agree_append] at hagree
    simp only [List.map_cons, List.map_append, List.map_nil, Stmt.mapTokens]
    exact .block (hf.kind_eq hleft) (hbody.mapTokens hf hagree.2.1) (hf.kind_eq hright)
  | _, _, _, .ifThen hword hopening hc hclosing hyes helse, hagree => by
    simp only [agree_cons, agree_append] at hagree
    obtain ⟨-, -, hcs, -, hts⟩ := hagree
    simp only [List.map_cons, List.map_append, Stmt.mapTokens]
    exact .ifThen (hf.kind_eq hword) (hf.kind_eq hopening) (hc.mapTokens hf hcs)
      (hf.kind_eq hclosing) (hyes.mapTokens hf hts) (by rwa [hf.startsWith_map])
  | _, _, _, .ifElse hword hopening hc hclosing hyes helse hno, hagree => by
    simp only [agree_cons, agree_append] at hagree
    obtain ⟨-, -, hcs, -, hts, -, hus⟩ := hagree
    have hyes' := hyes.mapTokens hf hts
    simp only [List.map_cons, List.map_append, Stmt.mapTokens] at hyes' ⊢
    exact .ifElse (hf.kind_eq hword) (hf.kind_eq hopening) (hc.mapTokens hf hcs)
      (hf.kind_eq hclosing) hyes' (hf.kind_eq helse) (hno.mapTokens hf hus)
  | _, _, _, .loop hword hopening hc hclosing hbody, hagree => by
    simp only [agree_cons, agree_append] at hagree
    obtain ⟨-, -, hcs, -, hts⟩ := hagree
    simp only [List.map_cons, List.map_append, Stmt.mapTokens]
    exact .loop (hf.kind_eq hword) (hf.kind_eq hopening) (hc.mapTokens hf hcs)
      (hf.kind_eq hclosing) (hbody.mapTokens hf hts)
  | _, _, _, .forLoop hword hopening hinit hcondition hsemicolon hincrement hclosing hbody,
      hagree => by
    simp only [agree_cons, agree_append] at hagree
    obtain ⟨-, -, hds, hcs, -, his, -, hts⟩ := hagree
    rw [mapTokens_forTree]
    simp only [List.map_cons, List.map_append]
    exact .forLoop (hf.kind_eq hword) (hf.kind_eq hopening) (hinit.mapTokens hf hds)
      (hcondition.mapTokens hf hcs) (hf.kind_eq hsemicolon) (hincrement.mapTokens hf his)
      (hf.kind_eq hclosing) (hbody.mapTokens hf hts)
  | _, _, _, .giveBack hword hresult hsemicolon, hagree => by
    simp only [agree_cons, agree_append] at hagree
    obtain ⟨hsame, hts, -⟩ := hagree
    simp only [List.map_cons, List.map_append, List.map_nil, Stmt.mapTokens]
    rw [← hsame (congrArg Kind.isConstant hword)]
    exact .giveBack (hf.kind_eq hword) (hresult.mapTokens hf hts) (hf.kind_eq hsemicolon)

/-- The same for declarations, one behind the other. -/
theorem Declarations.mapTokens (hf : Faithful f) : ∀ {ts rest : List Token} {ss : List Stmt},
    Declarations ts rest ss → Agree f g ts →
    Declarations (ts.map f) (rest.map f) (Stmt.mapTokensAll g ss)
  | _, _, _, .nil, _ => .nil
  | _, _, _, .cons hs hss, hagree => by
    obtain ⟨hts, hus⟩ := agree_append.1 hagree
    have hfirst := hs.mapTokens hf hts
    rw [List.map_append] at hfirst ⊢
    exact .cons hfirst (hss.mapTokens hf hus)

end

/-- Tokens that change in nothing that the grammar looks at spell the tree that is changed with
them. -/
theorem Program.mapTokens (hf : Faithful f) {ts : List Token} {p : List Stmt}
    (h : Program ts p) (hagree : Agree f g ts) :
    Program (ts.map f) (Stmt.mapTokensAll g p) := by
  cases h with
  | intro hp hfinal =>
      rw [List.map_append]
      exact .intro (hp.mapTokens hf (agree_append.1 hagree).1) (hf.kind_eq hfinal)

end Statements

end Grammar

end Scriptlet
